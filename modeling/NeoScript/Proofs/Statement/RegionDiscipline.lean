import NeoScript.Proofs.Statement.Regions

/-!
# Open regions on all ways through a statement

The shape of the open regions at an instruction can be read off the layout of the statement that it comes from: a part of
a protected block has the frame of the block on top of the regions around it. This gives every instruction of a statement
a shape, and each instruction then takes its shape to the shapes at its successors. So all instructions that leave a
region or end a finalizer are legal, and where a `break` or a `continue` goes the regions are those at the loop.

There is one exception. To leave the regions since the loop, a `break` or a `continue` uses one instruction for each of
them. That is not legal for a region whose finalizer is running.
-/

namespace NeoScript

open Generator Command Instruction Machine List Option Opcode Walk

/-- Whether no `break` and no `continue` leaves a finalizer. The flag says whether the statement itself stands in a
finalizer of its innermost loop. -/
def Statement.steady (inFinalizer : Bool) : Statement → Bool
  | straight _ | returnVoid | returnValue _ | raise _ => true
  | seq first second => first.steady inFinalizer && second.steady inFinalizer
  | ifThen _ body => body.steady inFinalizer
  | ifElse _ body other => body.steady inFinalizer && other.steady inFinalizer
  | whileDo _ body | forDo _ _ body => body.steady false
  | whileElse _ body other | forElse _ _ body other => body.steady false && other.steady inFinalizer
  | tryExcept body _ handler => body.steady inFinalizer && handler.steady inFinalizer
  | tryFinally body finalizer => body.steady inFinalizer && finalizer.steady true
  | tryBoth body _ handler finalizer =>
    body.steady inFinalizer && handler.steady inFinalizer && finalizer.steady true
  | breakLoop | continueLoop => !inFinalizer

/-- What a loop over a collection does by itself. -/
def Walk.instructions (walk : Walk) : List Instruction := walk.prepare ++ (walk.fetch ++ (walk.advance ++ walk.test))

namespace Regions

variable {A : Handle → Shape → Prop} {code a b : Code} {x t h : Handle} {σ τ : Shape} {w : Ways} {inFinalizer : Bool}
  {l l1 l2 : List ((Handle × Instruction) × Shape)} {p : (Handle × Instruction) × Shape} {c : Config}

/-! ### Code with shapes -/

/-- Instructions with the shapes of the regions that are open at them. -/
abbrev Shaped := List ((Handle × Instruction) × Shape)

/-- `A` says so of each instruction. -/
def Covers (A : Handle → Shape → Prop) (l : Shaped) : Prop := ∀ p ∈ l, A p.1.1 p.2

/-- Each instruction takes its shape to what `A` says of its successors. -/
def Typed (A : Handle → Shape → Prop) (x : Handle) : Shaped → Prop
  | [] => True
  | p :: l => Allows A p.1.2 (entry (l.map Prod.fst) x) p.2 ∧ Typed A x l

/-- The first instruction, if there is one, has the shape. -/
def Starts (σ : Shape) (l : Shaped) : Prop := ∀ p ∈ l.head?, p.2 = σ

/-- The same shape at all instructions. -/
def flat (σ : Shape) (code : Code) : Shaped := code.map fun e => (e, σ)

@[simp] lemma covers_cons : Covers A (p :: l) ↔ A p.1.1 p.2 ∧ Covers A l := by simp [Covers]

@[simp] lemma covers_append : Covers A (l1 ++ l2) ↔ Covers A l1 ∧ Covers A l2 := by
  simp [Covers, or_imp, forall_and]

@[simp] lemma typed_nil : Typed A x [] ↔ True := Iff.rfl

@[simp] lemma typed_cons : Typed A x (p :: l) ↔ Allows A p.1.2 (entry (l.map Prod.fst) x) p.2 ∧ Typed A x l := Iff.rfl

@[simp] lemma typed_append : Typed A x (l1 ++ l2) ↔ Typed A (entry (l2.map Prod.fst) x) l1 ∧ Typed A x l2 := by
  induction l1 with
  | nil => simp
  | cons p l1 ih => simp [ih, and_assoc]

@[simp] lemma starts_nil : Starts σ [] ↔ True := by simp [Starts]

@[simp] lemma starts_cons : Starts σ (p :: l) ↔ p.2 = σ := by simp [Starts]

lemma Starts.append (h1 : Starts σ l1) (h2 : Starts σ l2) : Starts σ (l1 ++ l2) := by
  cases l1 with
  | nil => exact h2
  | cons p l1 => exact h1

@[simp] lemma starts_flat : Starts σ (flat σ code) := by
  cases code <;> simp [flat]

@[simp] lemma map_fst_flat : (flat σ code).map Prod.fst = code := by
  simp [flat, Function.comp_def]

lemma Covers.entry (hc : Covers A l) (hs : Starts σ l) (hx : A x σ) : A (entry (l.map Prod.fst) x) σ := by
  cases l with
  | nil => exact hx
  | cons p l => exact hs p rfl ▸ (covers_cons.1 hc).1

/-- Code that jumps inside only keeps the regions. -/
lemma typed_flat (hi : Inner (· ≠ .finallyLeave) code x) (hc : Covers A (flat σ code)) (hx : A x σ) :
    Typed A x (flat σ code) := by
  -- the jumps go anywhere in the code, so the induction is on a part of it
  have hall : ∀ e ∈ code, A e.1 σ := fun e he => hc (e, σ) (mem_map_of_mem he)
  suffices hpart : ∀ part : Code, part ⊆ code → Typed A x (flat σ part) from hpart code fun _ he => he
  intro part hsub
  induction part with
  | nil => trivial
  | cons e part ih =>
    have hrest : part ⊆ code := fun _ he => hsub (mem_cons_of_mem _ he)
    refine ⟨?_, ih hrest⟩
    have hnext : A (NeoScript.entry ((flat σ part).map Prod.fst) x) σ :=
      Covers.entry (fun p hp => by
        obtain ⟨e, he, rfl⟩ := mem_map.1 hp
        exact hall e (hrest he)) starts_flat hx
    rcases hi e (hsub mem_cons_self) with ⟨hr, ho⟩ | hr | ⟨test, d, ho, ht, hd⟩
    · exact .plain hr (ho.elim id id) hnext
    · exact .call hr hnext
    · obtain ⟨h, o, bs, tgt⟩ := e
      obtain rfl : o = .jump test false := ho
      obtain rfl : tgt = .code d := ht
      refine .jump ?_ fun _ => hnext
      rcases hd with rfl | hd
      · exact hx
      · obtain ⟨e, he, rfl⟩ := mem_map.1 hd
        exact hall e he

/-- Instructions that only compute. -/
lemma inner_of_plain {P : Opcode → Prop} {is : List Instruction} (hm : code.map Prod.snd = is)
    (hp : ∀ i ∈ is, i.opcode.role = .plain ∧ i.opcode ≠ .finallyLeave) : Inner P code x := by
  subst hm
  intro e he
  obtain ⟨hr, ho⟩ := hp e.2 (mem_map_of_mem he)
  exact .inl ⟨hr, .inl ho⟩

lemma inner_nil {P : Opcode → Prop} : Inner P [] x := nofun

lemma inner_append {P : Opcode → Prop} (ha : Inner P a (entry b x)) (hb : Inner P b x) : Inner P (a ++ b) x := by
  intro e he
  rcases mem_append.1 he with he | he
  · rcases ha e he with h | h | ⟨test, d, ho, ht, hd⟩
    · exact .inl h
    · exact .inr (.inl h)
    · refine .inr (.inr ⟨test, d, ho, ht, ?_⟩)
      rcases hd with rfl | hd
      · cases b with
        | nil => exact .inl rfl
        | cons e b => exact .inr (by simp)
      · exact .inr (by simp only [map_append, mem_append, hd, true_or])
  · rcases hb e he with h | h | ⟨test, d, ho, ht, hd⟩
    · exact .inl h
    · exact .inr (.inl h)
    · refine .inr (.inr ⟨test, d, ho, ht, hd.imp_right fun hd => ?_⟩)
      simp only [map_append, mem_append, hd, or_true]

/-! ### Jumps out of regions -/

lemma exits_chain {n : Nat} (hc : Chain t n code) (hn : n ≤ σ.length) (hst : ∀ fr ∈ σ.take n, fr.stage ≠ .finalizer) :
    ∃ l : Shaped, l.map Prod.fst = code ∧ Starts σ l ∧ l ≠ [] ∧
      ∀ A x, Covers A l → A t (σ.drop n) → Typed A x l := by
  induction hc generalizing σ with
  | jump h =>
    refine ⟨[((h, goto .always t), σ)], rfl, by simp, by simp, fun A x _ ht => ?_⟩
    exact ⟨.jump ht fun hne => absurd rfl hne, trivial⟩
  | leave h =>
    obtain ⟨fr, σ, rfl⟩ := exists_cons_of_length_pos hn
    refine ⟨[((h, leave t), fr :: σ)], rfl, by simp, by simp, fun A x _ ht => ?_⟩
    exact ⟨.leave (hst fr (by simp)) ht, trivial⟩
  | next h _ ih =>
    obtain ⟨fr, σ, rfl⟩ := exists_cons_of_length_pos (Nat.lt_of_lt_of_le (Nat.succ_pos _) hn)
    obtain ⟨l, rfl, hs, hne, htyped⟩ := ih (Nat.le_of_succ_le_succ hn) fun fr hfr => hst fr (by simp [hfr])
    refine ⟨((h, leave _), fr :: σ) :: l, rfl, by simp, by simp, fun A x hcov ht => ?_⟩
    obtain ⟨-, hl⟩ := covers_cons.1 hcov
    refine ⟨.leave (hst fr (by simp)) ?_, htyped A x hl ht⟩
    cases l with
    | nil => exact absurd rfl hne
    | cons p l => exact hs p rfl ▸ (covers_cons.1 hl).1

/-! ### Statements -/

/-- What `A` has to say of the places that a statement is left for. -/
structure Opens (A : Handle → Shape → Prop) (w : Ways) (σ : Shape) (x : Handle) : Prop where
  behind : A x σ
  leave : ∀ t, w.leave = some t → A t (σ.drop w.levels)
  again : ∀ t, w.again = some t → A t (σ.drop w.levels)

/-- The regions where a `break` or a `continue` goes are those at the opening of the loop. -/
def Balanced (A : Handle → Shape → Prop) (r : Round) : Prop :=
  ∃ τ, A r.start τ ∧ A r.again τ ∧ ∀ t, r.leave = some t → A t τ

/-- The regions since the loop are there, and none of them is in its finalizer unless the flag says so. -/
structure Guarded (inFinalizer : Bool) (w : Ways) (σ : Shape) : Prop where
  levels : w.levels ≤ σ.length
  stages : inFinalizer = false → ∀ fr ∈ σ.take w.levels, fr.stage ≠ .finalizer

lemma Guarded.body (leave : Option Handle) (again : Handle) (kept : Nat) (flagged : Bool) :
    Guarded false (w.body leave again kept flagged) σ := ⟨Nat.zero_le _, by simp [Ways.body]⟩

lemma Guarded.part {fr : Frame} (hg : Guarded inFinalizer w σ) (hfr : fr.stage ≠ .finalizer) :
    Guarded inFinalizer w.guarded (fr :: σ) :=
  ⟨Nat.succ_le_succ hg.levels, fun hin => forall_mem_cons.2 ⟨hfr, hg.stages hin⟩⟩

lemma Guarded.finalizer {fr : Frame} (hg : Guarded inFinalizer w σ) : Guarded true w.guarded (fr :: σ) :=
  ⟨Nat.succ_le_succ hg.levels, nofun⟩

lemma Opens.guarded {fr : Frame} (ho : Opens A w σ x) (ht : A t (fr :: σ)) : Opens A w.guarded (fr :: σ) t :=
  ⟨ht, ho.leave, ho.again⟩

lemma Opens.body {leave : Option Handle} {again : Handle} {kept : Nat} {flagged : Bool}
    (hl : ∀ t, leave = some t → A t σ) (ha : A again σ) : Opens A (w.body leave again kept flagged) σ again :=
  ⟨ha, hl, fun _ h => some.inj h ▸ ha⟩

/-- The instructions of the code have shapes, with `σ` at the beginning. `Q` is what else they tell. -/
def Shapes (w : Ways) (σ : Shape) (code : Code) (x : Handle) (Q : (Handle → Shape → Prop) → Prop) : Prop :=
  ∃ l : Shaped, l.map Prod.fst = code ∧ Starts σ l ∧ ∀ A, Covers A l → Opens A w σ x → Typed A x l ∧ Q A

namespace Shapes

variable {a b c d f u v : Code} {h i j k x : Handle} {σ : Shape} {w : Ways} {Q R S : (Handle → Shape → Prop) → Prop}
  {leave : Option Handle} {kept : Nat} {flagged : Bool}

lemma mono (hs : Shapes w σ a x Q) (hQ : ∀ A, Q A → R A) : Shapes w σ a x R := by
  obtain ⟨l, hl, hst, ht⟩ := hs
  exact ⟨l, hl, hst, fun A hc ho => ⟨(ht A hc ho).1, hQ A (ht A hc ho).2⟩⟩

lemma of_inner (hi : Inner (· ≠ .finallyLeave) a x) : Shapes w σ a x fun _ => True :=
  ⟨flat σ a, map_fst_flat, starts_flat, fun _ hc ho => ⟨typed_flat hi hc ho.behind, trivial⟩⟩

lemma append (ha : Shapes w σ a (entry b x) Q) (hb : Shapes w σ b x R) : Shapes w σ (a ++ b) x fun A => Q A ∧ R A := by
  obtain ⟨la, rfl, hsa, hta⟩ := ha
  obtain ⟨lb, rfl, hsb, htb⟩ := hb
  refine ⟨la ++ lb, by simp, hsa.append hsb, fun A hc ho => ?_⟩
  obtain ⟨hca, hcb⟩ := covers_append.1 hc
  obtain ⟨hta, hQ⟩ := hta A hca ⟨hcb.entry hsb ho.behind, ho.leave, ho.again⟩
  obtain ⟨htb, hR⟩ := htb A hcb ho
  exact ⟨typed_append.2 ⟨hta, htb⟩, hQ, hR⟩

section

variable (ha : Inner (· ≠ .finallyLeave) a j)
include ha

lemma ifThen (hb : Shapes w σ b x Q) : Shapes w σ (a ++ (j, goto .ifFalse x) :: b) x Q := by
  obtain ⟨lb, rfl, hsb, htb⟩ := hb
  refine ⟨flat σ a ++ ((j, goto .ifFalse x), σ) :: lb, by simp, starts_flat.append (by simp), fun A hc ho => ?_⟩
  rw [covers_append, covers_cons] at hc
  obtain ⟨hca, hj, hcb⟩ := hc
  obtain ⟨htb, hQ⟩ := htb A hcb ho
  rw [typed_append, typed_cons]
  exact ⟨⟨typed_flat ha hca hj, .jump ho.behind fun _ => hcb.entry hsb ho.behind, htb⟩, hQ⟩

lemma ifElse (hb : Shapes w σ b k Q) (hc : Shapes w σ c x R) :
    Shapes w σ (a ++ (j, goto .ifFalse (entry c x)) :: (b ++ (k, goto .always x) :: c)) x fun A => Q A ∧ R A := by
  obtain ⟨lb, rfl, hsb, htb⟩ := hb
  obtain ⟨lc, rfl, hsc, htc⟩ := hc
  refine ⟨flat σ a ++ ((j, goto .ifFalse (entry (lc.map Prod.fst) x)), σ) :: (lb ++ ((k, goto .always x), σ) :: lc),
    by simp, starts_flat.append (by simp), fun A hcov ho => ?_⟩
  simp only [covers_append, covers_cons] at hcov
  obtain ⟨hca, hj, hcb, hk, hcc⟩ := hcov
  obtain ⟨htb, hQ⟩ := htb A hcb ⟨hk, ho.leave, ho.again⟩
  obtain ⟨htc, hR⟩ := htc A hcc ho
  have hb : A (entry (lb.map Prod.fst) k) σ := hcb.entry hsb hk
  have hc : A (entry (lc.map Prod.fst) x) σ := hcc.entry hsc ho.behind
  simp only [typed_append, typed_cons]
  refine ⟨⟨typed_flat ha hca hj, .jump hc fun _ => ?_, htb, .jump ho.behind fun hne => absurd rfl hne, htc⟩, hQ, hR⟩
  simpa using hb

/-- A loop: `a` comes before it, `f` and `u` are around its body `b`, `v` is the test and `d` comes behind it. -/
lemma loop (hf : Inner (· ≠ .finallyLeave) f (entry b (entry u (entry v k))))
    (hu : Inner (· ≠ .finallyLeave) u (entry v k)) (hv : Inner (· ≠ .finallyLeave) v k)
    (hb : Shapes (w.body leave (entry u (entry v k)) kept flagged) σ b (entry u (entry v k)) Q)
    (hd : Shapes w σ d x fun A => (A x σ → ∀ t, leave = some t → A t σ) ∧ R A) :
    Shapes w σ (a ++ (j, goto .always (entry v k)) :: (f ++ (b ++ (u ++ (v ++
      (k, goto .ifTrue (entry f (entry b (entry u (entry v k))))) :: d))))) x
      fun A => Balanced A ⟨j, leave, entry u (entry v k)⟩ ∧ Q A ∧ R A := by
  obtain ⟨lb, rfl, hsb, htb⟩ := hb
  obtain ⟨ld, rfl, hsd, htd⟩ := hd
  refine ⟨flat σ a ++ ((j, goto .always (entry v k)), σ) :: (flat σ f ++ (lb ++ (flat σ u ++ (flat σ v ++
    ((k, goto .ifTrue (entry f (entry (lb.map Prod.fst) (entry u (entry v k))))), σ) :: ld)))),
    by simp, starts_flat.append (by simp), fun A hcov ho => ?_⟩
  simp only [covers_append, covers_cons] at hcov
  obtain ⟨hca, hj, hcf, hcb, hcu, hcv, hk, hcd⟩ := hcov
  obtain ⟨htd, hleave, hR⟩ := htd A hcd ho
  -- from the last part to the first, what `A` says of its beginning
  have hv' : A (entry v k) σ := by simpa using hcv.entry starts_flat hk
  have hu' : A (entry u (entry v k)) σ := by simpa using hcu.entry starts_flat hv'
  have hb' : A (entry (lb.map Prod.fst) (entry u (entry v k))) σ := hcb.entry hsb hu'
  have hf' : A (entry f (entry (lb.map Prod.fst) (entry u (entry v k)))) σ := by simpa using hcf.entry starts_flat hb'
  obtain ⟨htb, hQ⟩ := htb A hcb (.body (hleave ho.behind) hu')
  refine ⟨?_, ⟨σ, hj, hu', hleave ho.behind⟩, hQ, hR⟩
  simp only [typed_append, typed_cons, map_append, map_cons, map_fst_flat, entry_append, entry_cons]
  exact ⟨typed_flat ha hca hj, .jump hv' fun hne => absurd rfl hne, typed_flat hf hcf hb', htb, typed_flat hu hcu hv',
    typed_flat hv hcv hk, .jump hf' fun _ => hcd.entry hsd ho.behind, htd⟩

end

/-- What comes behind a loop that is left for `x`. -/
lemma behind (hd : Shapes w σ d x R) : Shapes w σ d x fun A => (A x σ → ∀ t, some x = some t → A t σ) ∧ R A :=
  hd.mono fun _ hR => ⟨fun hx _ ht => some.inj ht ▸ hx, hR⟩

/-- The `else` part of a loop and what stands in front of it. -/
lemma guard (hg : Guard x c leave flagged) (hd : Shapes w σ d x R) :
    Shapes w σ (c ++ d) x fun A => (A x σ → ∀ t, leave = some t → A t σ) ∧ R A := by
  cases hg with
  | none => exact hd.mono fun _ hR => ⟨fun _ _ => nofun, hR⟩
  | jump p q =>
    obtain ⟨ld, rfl, hsd, htd⟩ := hd
    refine ⟨((p, bare (.pushBool false)), σ) :: ((q, goto .ifTrue x), σ) :: ld, by simp, by simp, fun A hcov ho => ?_⟩
    simp only [covers_cons] at hcov
    obtain ⟨-, hq, hcd⟩ := hcov
    obtain ⟨htd, hR⟩ := htd A hcd ho
    refine ⟨⟨.plain rfl (by simp) hq, .jump ho.behind fun _ => hcd.entry hsd ho.behind, htd⟩, fun _ t ht => ?_, hR⟩
    exact some.inj ht ▸ hq

/-- A jump out of the regions since the loop. -/
lemma exit (hc : Chain h w.levels a) (hw : Guarded false w σ) (hh : w.leave = some h ∨ w.again = some h) :
    Shapes w σ a x fun _ => True := by
  obtain ⟨l, hl, hs, -, ht⟩ := exits_chain hc hw.levels (hw.stages rfl)
  exact ⟨l, hl, hs, fun A hcov ho => ⟨ht A x hcov (hh.elim (ho.leave h) (ho.again h)), trivial⟩⟩

end Shapes

/-! ### Protected blocks -/

/-- The instructions of some clauses of a protected block have shapes, where `σ` are the regions around it. Control
does not get from one clause to the next by itself. -/
def Clauses (w : Ways) (σ : Shape) (code : Code) (x : Handle) (Q : (Handle → Shape → Prop) → Prop) : Prop :=
  ∃ l : Shaped, l.map Prod.fst = code ∧ ∀ A y, Covers A l → Opens A w σ x → Typed A y l ∧ Q A

namespace Clauses

variable {a b : Code} {h j x : Handle} {σ : Shape} {w : Ways} {fr : Frame} {Q R : (Handle → Shape → Prop) → Prop}
  {e f : Option Handle}

lemma append (ha : Clauses w σ a x Q) (hb : Clauses w σ b x R) : Clauses w σ (a ++ b) x fun A => Q A ∧ R A := by
  obtain ⟨la, rfl, hta⟩ := ha
  obtain ⟨lb, rfl, htb⟩ := hb
  refine ⟨la ++ lb, by simp, fun A y hc ho => ?_⟩
  obtain ⟨hca, hcb⟩ := covers_append.1 hc
  obtain ⟨hta, hQ⟩ := hta A (entry (lb.map Prod.fst) y) hca ho
  obtain ⟨htb, hR⟩ := htb A y hcb ho
  exact ⟨typed_append.2 ⟨hta, htb⟩, hQ, hR⟩

section

variable (ha : Shapes w.guarded (fr :: σ) a j Q)
include ha

/-- A clause, closed by an instruction `i` that does not lead to the next one. -/
lemma single {i : Instruction} (hi : ∀ A y, A x σ → Allows A i y (fr :: σ)) :
    Clauses w σ (a ++ [(j, i)]) x fun A => A (entry a j) (fr :: σ) ∧ Q A := by
  obtain ⟨la, rfl, hsa, hta⟩ := ha
  refine ⟨la ++ [((j, i), fr :: σ)], by simp, fun A y hc ho => ?_⟩
  simp only [covers_append, covers_cons] at hc
  obtain ⟨hca, hj, -⟩ := hc
  obtain ⟨hta, hQ⟩ := hta A hca (ho.guarded hj)
  exact ⟨typed_append.2 ⟨hta, hi A y ho.behind, trivial⟩, hca.entry hsa hj, hQ⟩

/-- A body or a handler. -/
lemma leave (hfr : fr.stage ≠ .finalizer) :
    Clauses w σ (a ++ [(j, leave x)]) x fun A => A (entry a j) (fr :: σ) ∧ Q A :=
  single ha fun _ _ hx => .leave hfr hx

lemma finalizer (hfr : fr.stage = .finalizer) :
    Clauses w σ (a ++ [(j, bare .finallyLeave)]) x fun A => A (entry a j) (fr :: σ) ∧ Q A :=
  single ha fun _ _ _ => .finish hfr

end

/-- The block with all its clauses. -/
lemma protect (hp : Clauses w σ a x Q) (hbody : ∀ A, Q A → A (entry a x) (⟨e, f, .body⟩ :: σ))
    (he : ∀ A, Q A → ∀ k, e = some k → A k (⟨e, f, .handler⟩ :: σ))
    (hf : ∀ A, Q A → ∀ k, f = some k → A k (⟨e, f, .finalizer⟩ :: σ)) : Shapes w σ ((h, protect e f) :: a) x Q := by
  obtain ⟨l, rfl, ht⟩ := hp
  refine ⟨((h, protect e f), σ) :: l, rfl, by simp, fun A hc ho => ?_⟩
  obtain ⟨ht, hQ⟩ := ht A x (covers_cons.1 hc).2 ho
  exact ⟨⟨.protect (hbody A hQ) (he A hQ) (hf A hQ), ht⟩, hQ⟩

end Clauses

namespace Shapes

variable {a b c d : Code} {h i j k x : Handle} {σ : Shape} {w : Ways} {Q R S : (Handle → Shape → Prop) → Prop}

lemma tryExcept {e : Handle} (he : e = entry b (entry c k)) (ha : Shapes w.guarded (⟨some e, none, .body⟩ :: σ) a j Q)
    (hb : Inner (· ≠ .finallyLeave) b (entry c k)) (hc : Shapes w.guarded (⟨some e, none, .handler⟩ :: σ) c k R) :
    Shapes w σ ((h, protect (some e) none) :: (a ++ (j, leave x) :: (b ++ (c ++ [(k, leave x)])))) x
      fun A => Q A ∧ R A := by
  have hclauses := (Clauses.leave (x := x) ha nofun).append (.leave ((of_inner hb).append hc) nofun)
  simp only [append_assoc, cons_append, nil_append, entry_append, ← he] at hclauses
  refine (hclauses.protect (fun A hQ => ?_) (fun A hQ _ hk => some.inj hk ▸ hQ.2.1) fun _ _ _ hk => by cases hk).mono fun A hQ => ?_
  · simpa using hQ.1.1
  · exact ⟨hQ.1.2, hQ.2.2.2⟩

lemma tryFinally {e : Handle} (he : e = entry b k) (ha : Shapes w.guarded (⟨none, some e, .body⟩ :: σ) a j Q)
    (hb : Shapes w.guarded (⟨none, some e, .finalizer⟩ :: σ) b k R) :
    Shapes w σ ((h, protect none (some e)) :: (a ++ (j, leave x) :: (b ++ [(k, bare .finallyLeave)]))) x
      fun A => Q A ∧ R A := by
  have hclauses := (Clauses.leave (x := x) ha nofun).append (.finalizer hb rfl)
  simp only [append_assoc, cons_append, nil_append, ← he] at hclauses
  refine (hclauses.protect (fun A hQ => ?_) (fun _ _ _ hk => by cases hk)
    (fun A hQ _ hk => some.inj hk ▸ hQ.2.1)).mono fun A hQ => ?_
  · simpa using hQ.1.1
  · exact ⟨hQ.1.2, hQ.2.2⟩

lemma tryBoth {e q : Handle} (he : e = entry b (entry c j)) (hq : q = entry d k)
    (ha : Shapes w.guarded (⟨some e, some q, .body⟩ :: σ) a i Q) (hb : Inner (· ≠ .finallyLeave) b (entry c j))
    (hc : Shapes w.guarded (⟨some e, some q, .handler⟩ :: σ) c j R)
    (hd : Shapes w.guarded (⟨some e, some q, .finalizer⟩ :: σ) d k S) :
    Shapes w σ ((h, protect (some e) (some q)) :: (a ++ (i, leave x) :: (b ++ (c ++ (j, leave x) ::
      (d ++ [(k, bare .finallyLeave)]))))) x fun A => Q A ∧ R A ∧ S A := by
  have hclauses := (Clauses.leave (x := x) ha nofun).append
    ((Clauses.leave ((of_inner hb).append hc) nofun).append (.finalizer hd rfl))
  simp only [append_assoc, cons_append, nil_append, entry_append, ← he, ← hq] at hclauses
  refine (hclauses.protect (fun A hQ => ?_) (fun A hQ _ hk => some.inj hk ▸ hQ.2.1.1)
    (fun A hQ _ hk => some.inj hk ▸ hQ.2.2.1)).mono fun A hQ => ?_
  · simpa using hQ.1.1
  · exact ⟨hQ.1.2, hQ.2.1.2.2, hQ.2.2.2⟩

end Shapes

/-! ### Blocks -/

lemma plain_indexed {prepare : List Instruction} (collection : ValueType)
    (hp : ∀ i ∈ prepare, i.opcode.role = .plain ∧ i.opcode ≠ .finallyLeave) :
    ∀ i ∈ (indexed prepare collection).instructions, i.opcode.role = .plain ∧ i.opcode ≠ .finallyLeave := by
  unfold instructions Walk.indexed
  simp only [forall_mem_append, forall_mem_cons]
  split <;> simp [role] <;> exact hp

lemma plain_walk (type : ValueType) : ∀ i ∈ (of type).instructions, i.opcode.role = .plain ∧ i.opcode ≠ .finallyLeave := by
  unfold Walk.of
  split
  · exact plain_indexed _ (by simp [role])
  · simp [instructions, iterated, role]
  · exact plain_indexed _ (by simp)

lemma fetch_walk_ne_nil (type : ValueType) : (of type).fetch ≠ [] := by
  unfold Walk.of
  split <;> simp [indexed, iterated]

section walks

variable {type : ValueType} {P : Opcode → Prop} {p f u v r : Code}

lemma inner_drop (hw : Walks (.of type) p f u v r) (x : Handle) : Inner P r x :=
  inner_of_plain hw.drop (by simp [role])

/-- A loop over a collection: `n` takes the item that a round starts with. -/
lemma Shapes.forLoop {a n b d : Code} {j k x : Handle} {leave : Option Handle} {kept : Nat} {flagged : Bool}
    {Q R : (Handle → Shape → Prop) → Prop} (ha : Inner (· ≠ .finallyLeave) a (entry p j))
    (hw : Walks (.of type) p f u v r) (hn : Inner (· ≠ .finallyLeave) n (entry b (entry u (entry v k))))
    (hb : Shapes (w.body leave (entry u (entry v k)) kept flagged) σ b (entry u (entry v k)) Q)
    (hd : Shapes w σ d x fun A => (A x σ → ∀ t, leave = some t → A t σ) ∧ R A) :
    Shapes w σ (a ++ (p ++ (j, goto .always (entry v k)) :: (f ++ (n ++ (b ++ (u ++ (v ++
      (k, goto .ifTrue (entry f k)) :: d))))))) x
      fun A => Balanced A ⟨j, leave, entry u (entry v k)⟩ ∧ Q A ∧ R A := by
  have hplain := plain_walk type
  simp only [instructions, forall_mem_append] at hplain
  obtain ⟨hp, hf, hu, hv⟩ := hplain
  have hback : entry f k = entry (f ++ n) (entry b (entry u (entry v k))) := by
    cases f with
    | nil => exact absurd hw.fetch.symm (fetch_walk_ne_nil type)
    | cons e f => rfl
  rw [hback]
  have hloop := Shapes.loop (inner_append ha (inner_of_plain hw.prepare hp))
    (inner_append (inner_of_plain hw.fetch hf) hn) (inner_of_plain hw.advance hu) (inner_of_plain hw.test hv) hb hd
  simpa only [append_assoc] using hloop

end walks

/-- **Every instruction of a statement has a shape.** -/
lemma shapes_of_block {s : Statement} {g : Generator} {rounds : List Round}
    (hb : Block (· ≠ .finallyLeave) w s g code x rounds) (hs : s.steady inFinalizer = true)
    (hw : Guarded inFinalizer w σ) : Shapes w σ code x fun A => ∀ r ∈ rounds, Balanced A r := by
  induction hb generalizing σ inFinalizer with
  | straight he => exact (Shapes.of_inner he.inner).mono (by simp)
  | seq _ _ _ ih1 ih2 =>
    rw [Statement.steady, Bool.and_eq_true] at hs
    exact ((ih1 hs.1 hw).append (ih2 hs.2 hw)).mono fun _ => forall_mem_append.2
  | ifThen he _ _ ih => exact .ifThen he.inner (ih hs hw)
  | ifElse he _ _ _ _ ih1 ih2 =>
    rw [Statement.steady, Bool.and_eq_true] at hs
    exact (Shapes.ifElse he.inner (ih1 hs.1 hw) (ih2 hs.2 hw)).mono fun _ => forall_mem_append.2
  | whileDo _ he ht _ _ ih =>
    subst ht
    refine Shapes.mono (.loop (a := []) (f := []) (u := []) inner_nil inner_nil inner_nil he.inner
      (ih hs (.body _ _ _ _)) (Shapes.of_inner inner_nil).behind) fun A hA => ?_
    exact forall_mem_cons.2 ⟨hA.1, hA.2.1⟩
  | whileElse _ he ht _ _ hg _ _ ih1 ih2 =>
    subst ht
    rw [Statement.steady, Bool.and_eq_true] at hs
    refine Shapes.mono (.loop (a := []) (f := []) (u := []) inner_nil inner_nil inner_nil he.inner
      (ih1 hs.1 (.body _ _ _ _)) ((ih2 hs.2 hw).guard hg)) fun A hA => ?_
    exact forall_mem_cons.2 ⟨hA.1, forall_mem_append.2 hA.2⟩
  | forDo hcol hwalk hws _ htgt _ ih =>
    subst hwalk
    refine Shapes.mono (.forLoop hcol.inner hws htgt.inner (ih hs (.body _ _ _ _))
      (Shapes.of_inner (inner_drop hws _)).behind) fun A hA => ?_
    exact forall_mem_cons.2 ⟨hA.1, hA.2.1⟩
  | forElse hcol hwalk hws _ htgt _ hg _ _ ih1 ih2 =>
    subst hwalk
    rw [Statement.steady, Bool.and_eq_true] at hs
    refine Shapes.mono (.forLoop hcol.inner hws htgt.inner (ih1 hs.1 (.body _ _ _ _))
      (((Shapes.of_inner (inner_drop hws _)).append ((ih2 hs.2 hw).guard hg)).mono fun _ => And.right)) fun A hA => ?_
    exact forall_mem_cons.2 ⟨hA.1, forall_mem_append.2 hA.2⟩
  | tryExcept _ _ _ hi _ ih1 ih2 =>
    rw [Statement.steady, Bool.and_eq_true] at hs
    exact (Shapes.tryExcept rfl (ih1 hs.1 (hw.part nofun)) hi (ih2 hs.2 (hw.part nofun))).mono fun _ =>
      forall_mem_append.2
  | tryFinally _ _ _ _ ih1 ih2 =>
    rw [Statement.steady, Bool.and_eq_true] at hs
    exact (Shapes.tryFinally rfl (ih1 hs.1 (hw.part nofun)) (ih2 hs.2 hw.finalizer)).mono fun _ =>
      forall_mem_append.2
  | tryBoth _ _ _ hi _ _ _ ih1 ih2 ih3 =>
    rw [Statement.steady, Bool.and_eq_true, Bool.and_eq_true] at hs
    exact (Shapes.tryBoth rfl rfl (ih1 hs.1.1 (hw.part nofun)) hi (ih2 hs.1.2 (hw.part nofun))
      (ih3 hs.2 hw.finalizer)).mono fun _ hA => forall_mem_append.2 ⟨hA.1, forall_mem_append.2 hA.2⟩
  | breakLoop ht hd hf hc =>
    obtain rfl : inFinalizer = false := by simpa [Statement.steady] using hs
    refine Shapes.mono (.append (.of_inner (inner_of_plain hd ?_)) (.append (.of_inner (inner_of_plain hf ?_))
      (.exit hc hw (.inl ht)))) (by simp)
    · simp [role]
    · split <;> simp [role]
  | continueLoop ht hc =>
    obtain rfl : inFinalizer = false := by simpa [Statement.steady] using hs
    exact (Shapes.exit hc hw (.inr ht)).mono (by simp)
  | returnVoid ha =>
    refine (Shapes.of_inner (inner_of_plain ha ?_)).mono (by simp)
    intro i hi
    split at hi <;> grind [role]
  | returnValue he hb =>
    refine (Shapes.of_inner (inner_append he.inner (inner_of_plain hb ?_))).mono (by simp)
    grind [role]
  | raise he =>
    refine (Shapes.of_inner (inner_append (b := [_]) he.inner (inner_of_plain rfl ?_))).mono (by simp)
    simp [role]

/-! ### All ways through a statement -/

/-- What the shapes of the code say, if there are no regions behind it. -/
def Known (l : Shaped) (x h : Handle) (σ : Shape) : Prop := (∃ i, ((h, i), σ) ∈ l) ∨ h = x ∧ σ = []

lemma eq_of_mem_shaped {i1 i2 : Instruction} (hn : (l.map fun p => p.1.1).Nodup) (h1 : ((h, i1), σ) ∈ l)
    (h2 : ((h, i2), τ) ∈ l) : i1 = i2 ∧ σ = τ := by
  have heq := inj_on_of_nodup_map hn h1 h2 rfl
  simpa using heq

lemma Known.unique (hn : (l.map fun p => p.1.1).Nodup) (hx : x ∉ l.map fun p => p.1.1) (h1 : Known l x h σ)
    (h2 : Known l x h τ) : σ = τ := by
  have hout : ∀ {i ρ}, ((x, i), ρ) ∉ l := fun hm => hx (mem_map_of_mem hm)
  rcases h1 with ⟨i1, h1⟩ | ⟨rfl, rfl⟩
  · rcases h2 with ⟨i2, h2⟩ | ⟨rfl, rfl⟩
    · exact (eq_of_mem_shaped hn h1 h2).2
    · exact absurd h1 hout
  · rcases h2 with ⟨i2, h2⟩ | ⟨-, rfl⟩
    · exact absurd h2 hout
    · rfl

lemma Typed.fetch {i j : Instruction} {n : Handle} (ht : Typed A x l) (hn : (l.map fun p => p.1.1).Nodup)
    (hm : ((h, j), σ) ∈ l) (hf : fetch (l.map Prod.fst) x h = some (i, n)) : Allows A i n σ := by
  induction l with
  | nil => cases hm
  | cons p l ih =>
    obtain ⟨⟨k, o⟩, τ⟩ := p
    obtain ⟨hk, hn⟩ := nodup_cons.1 hn
    rw [map_cons, Machine.fetch] at hf
    rcases mem_cons.1 hm with heq | hm
    · cases heq
      rw [if_pos rfl] at hf
      cases hf
      exact ht.1
    · have hne : k ≠ h := by
        rintro rfl
        exact hk (mem_map.2 ⟨_, hm, rfl⟩)
      rw [if_neg hne] at hf
      exact ih ht.2 hn hm hf

lemma mem_of_fetch {i : Instruction} {n : Handle} (hf : fetch code x h = some (i, n)) : h ∈ code.map Prod.fst := by
  induction code with
  | nil => cases hf
  | cons e code ih =>
    rw [Machine.fetch] at hf
    split at hf
    · next heq => exact heq ▸ mem_cons_self
    · exact mem_cons_of_mem _ (ih hf)

lemma sound_known (hn : (l.map fun p => p.1.1).Nodup) (hx : x ∉ l.map fun p => p.1.1) (ht : Typed (Known l x) x l) :
    Sound (Known l x) (l.map Prod.fst) x := by
  intro pc i n σ hf hA
  rcases hA with ⟨j, hm⟩ | ⟨rfl, -⟩
  · exact ht.fetch hn hm hf
  · exact absurd (by simpa using mem_of_fetch hf) hx

/-- On all ways through the code, behind which comes `x`, all instructions are legal, no region is open at the end, and
where a `break` or a `continue` goes as many are open as at the opening of its loop. -/
def Disciplined (code : Code) (x : Handle) (rounds : List Round) : Prop :=
  ∀ c, Leads code x ⟨entry code x, []⟩ c → Legal code x c ∧ (c.pc = x → c.regions = []) ∧
    ∀ r ∈ rounds, c.pc = r.again ∨ r.leave = some c.pc → ∀ d, Leads code x ⟨entry code x, []⟩ d → d.pc = r.start →
      c.regions.length = d.regions.length

/-- The shapes of the code make it disciplined. -/
lemma Shapes.disciplined {rounds : List Round} (hs : Shapes w [] code x fun A => ∀ r ∈ rounds, Balanced A r)
    (hw : w.leave = none) (ha : w.again = none) (hn : (code.map Prod.fst).Nodup) (hx : x ∉ code.map Prod.fst) :
    Disciplined code x rounds := by
  obtain ⟨l, rfl, hstart, ht⟩ := hs
  rw [List.map_map] at hn hx
  have hcov : Covers (Known l x) l := fun p hp => .inl ⟨p.1.2, hp⟩
  have hopen : Opens (Known l x) w [] x := ⟨.inr ⟨rfl, rfl⟩, by simp [hw], by simp [ha]⟩
  obtain ⟨htyped, hrounds⟩ := ht _ hcov hopen
  have hsound := sound_known hn hx htyped
  have hgood : ∀ c, Leads (l.map Prod.fst) x ⟨entry (l.map Prod.fst) x, []⟩ c → Good (Known l x) c := fun c hc =>
    hsound.leads ⟨[], hcov.entry hstart (.inr ⟨rfl, rfl⟩), .nil⟩ hc
  -- the instruction alone tells how many regions are open
  have hcount : ∀ c τ, Leads (l.map Prod.fst) x ⟨entry (l.map Prod.fst) x, []⟩ c → Known l x c.pc τ →
      c.regions.length = τ.length := by
    intro c τ hc hτ
    obtain ⟨σ, hσ, hm⟩ := hgood c hc
    rw [hm.length, hσ.unique hn hx hτ]
  intro c hc
  refine ⟨hsound.legal (hgood c hc), fun hpc => ?_, fun r hr hto d hd hpc => ?_⟩
  · exact eq_nil_of_length_eq_zero (hcount c [] hc (.inr ⟨hpc, rfl⟩))
  · obtain ⟨τ, hτ, hagain, hleave⟩ := hrounds r hr
    rw [hcount d τ hd (hpc ▸ hτ), hcount c τ hc (hto.elim (fun h => h ▸ hagain) (hleave _))]

end Regions

open Regions

namespace Statement

variable {s : Statement} {g g' : Generator}

/-- **Regions are left as they were entered.** A statement is emitted in the middle of a method, its `break`s and
`continue`s are in loops, and none of them leaves a finalizer. Whatever way control takes through its code, with an
exception at any instruction, all that leaves a region or ends a finalizer is legal; no region is open behind the
statement; and a `break` or a `continue` gets where it goes with as many open regions as its loop was opened with. -/
theorem disciplines_regions (hg : Underway g) (hn : s.nested false false = true) (hs : s.steady false = true)
    (hfit : s.fits g = true) (hcmds : ∀ cmd ∈ s.commands, cmd.Orderly g.symbols ∧ cmd.Inlines (· ≠ .finallyLeave))
    (hrun : Ran s.commands g g') :
    ∃ new, Adds g new g' ∧ ∀ x ∉ new, ∃ rounds,
      Block (· ≠ .finallyLeave) { total := (g.loops.map fun l => l.kind.kept).sum } s g (g'.listing x new) x rounds ∧
        Disciplined (g'.listing x new) x rounds := by
  obtain ⟨new, hadds, hblock⟩ := hg.block hn hfit hcmds hrun
  refine ⟨new, hadds, fun x hx => ?_⟩
  obtain ⟨rounds, hb⟩ := hblock x
  have hnodup := hadds.legible.laid.nodup
  rw [hadds.live, List.nodup_append] at hnodup
  have hhandles : (g'.listing x new).map Prod.fst = new :=
    handles_listing hadds.legible.laid (fun h hm => hadds.live ▸ List.mem_append_right _ hm) x
  have hshapes := shapes_of_block (σ := []) hb hs ⟨Nat.zero_le _, fun _ => by simp⟩
  refine ⟨rounds, hb, hshapes.disciplined rfl rfl ?_ ?_⟩
  · rw [hhandles]
    exact hnodup.2.1
  · rw [hhandles]
    exact hx

/-- A loop with protected blocks in it, left and continued from their bodies and handlers. In the finalizer of one of
them there is another loop, left from a protected block. -/
def retrying : Statement :=
  whileElse [.load "x"]
    (tryBoth
      (seq (ifThen [.load "y"] breakLoop) (tryExcept (ifThen [.load "x"] continueLoop) none breakLoop))
      (some "y") (ifThen [.load "y"] continueLoop)
      (forElse [.load "xs"] [.store "x"] (tryFinally breakLoop (straight [.load "x", .store "y"])) returnVoid))
    (straight [.load "x", .store "y"])

theorem disciplines_regions_retrying :
    ∃ g g' new, Underway g ∧ Ran retrying.commands g g' ∧ Adds g new g' ∧ new.length = 58 ∧ ∀ x ∉ new, ∃ rounds,
      Block (· ≠ .finallyLeave) { total := (g.loops.map fun l => l.kind.kept).sum } retrying g (g'.listing x new) x rounds ∧
        Disciplined (g'.listing x new) x rounds := by
  have hsome : runsAfter listAndNumbers "main" [] retrying.commands (fun g g' =>
      retrying.fits g && g'.code.live.length == g.code.live.length + 58) = true := by decide +kernel
  obtain ⟨g, g', hunderway, hrun, hsome⟩ := underway_runsAfter hsome
  rw [Bool.and_eq_true, beq_iff_eq] at hsome
  have hcmds : ∀ cmd ∈ retrying.commands, cmd.Orderly g.symbols ∧ cmd.Inlines (· ≠ .finallyLeave) := by
    simp only [retrying, commands, List.forall_mem_append, List.forall_mem_cons, Orderly, Inlines]
    simp
  obtain ⟨new, hadds, hall⟩ := disciplines_regions hunderway (by decide) (by decide) hsome.1 hcmds hrun
  refine ⟨g, g', new, hunderway, hrun, hadds, ?_, hall⟩
  have hlen := hsome.2
  rw [hadds.live, List.length_append] at hlen
  exact Nat.add_left_cancel hlen

/-- A loop with a protected block whose finalizer goes on with the next round. -/
def leavingFinalizer : Statement := whileDo [.load "x"] (tryFinally (straight []) continueLoop)

/-- Its code. -/
def leavingFinalizerCode : Code :=
  [(1, goto .always 2), (4, protect none (some 6)), (5, leave 2), (6, leave 2), (7, bare .finallyLeave),
    (2, bare (.load .frame (some 1))), (3, goto .ifTrue 4)]

/-- **A `continue` that leaves a finalizer is not legal**: the instruction that it uses is for bodies and handlers. -/
theorem continue_in_finalizer_illegal :
    ∃ g g' new, Underway g ∧ leavingFinalizer.nested false false = true ∧ leavingFinalizer.fits g = true ∧
      (∀ cmd ∈ leavingFinalizer.commands, cmd.Orderly g.symbols ∧ cmd.Inlines (· ≠ .finallyLeave)) ∧
      Ran leavingFinalizer.commands g g' ∧ Adds g new g' ∧ ∃ x ∉ new, ∃ c,
        Leads (g'.listing x new) x ⟨entry (g'.listing x new) x, []⟩ c ∧ ¬ Legal (g'.listing x new) x c := by
  have hsome : runsAfter listAndNumbers "main" [] leavingFinalizer.commands (fun g g' =>
      leavingFinalizer.fits g && g.code.live == [0] && g'.code.live == [0, 1, 4, 5, 6, 7, 2, 3] &&
        g'.listing 8 [1, 4, 5, 6, 7, 2, 3] == leavingFinalizerCode) = true := by decide +kernel
  obtain ⟨g, g', hunderway, hrun, hsome⟩ := underway_runsAfter hsome
  simp only [Bool.and_eq_true, beq_iff_eq] at hsome
  obtain ⟨⟨⟨hfit, hlive⟩, hlive'⟩, hcode⟩ := hsome
  have hcmds : ∀ cmd ∈ leavingFinalizer.commands, cmd.Orderly g.symbols ∧ cmd.Inlines (· ≠ .finallyLeave) := by
    simp [leavingFinalizer, commands, Orderly, Inlines]
  obtain ⟨new, hadds, -⟩ := hunderway.block (by decide) hfit hcmds hrun
  obtain rfl : new = [1, 4, 5, 6, 7, 2, 3] := by simpa [hlive, hlive'] using hadds.live.symm
  refine ⟨g, g', _, hunderway, by decide, hfit, hcmds, hrun, hadds, 8, by decide, ?_⟩
  rw [hcode]
  -- through the test and into the block, from there to its finalizer
  have hway := Relation.ReflTransGen.refl (r := Step leavingFinalizerCode 8) (a := ⟨1, []⟩)
  have hway := hway.tail (.jump (t := 2) rfl)
  have hway := hway.tail (.next rfl (.inl rfl) rfl)
  have hway := hway.tail (.jump (t := 4) rfl)
  have hway := hway.tail (.enter (h := none) (f := some 6) rfl)
  have hway := hway.tail (.finalize (t := 2) (f := 6) rfl (by decide) rfl)
  refine ⟨_, hway, fun hlegal => ?_⟩
  exact absurd (hlegal (leave 2) 7 rfl) (by decide)

end Statement

end NeoScript
