import NeoScript.Proofs.Statement.Balance
import NeoScript.Proofs.Statement.Layout

/-!
# From states to layouts

While a loop is open, its exits have no targets, and each `break` has a flag that may be taken away when the loop is
closed. `Exits` lists what a statement leaves open in this way. `Agrees` compares the final code with the code of a
state: they read the same, except that the exits lead to where they are meant to go, and that everything that led to a
flag which was taken away leads to what follows it.
-/

namespace NeoScript

open Generator Command Instruction List Option

variable {g g' g1 g2 : Generator} {cs ds : List Command} {c : Command}

/-! ### Runs -/

lemma ran_append : Ran (cs ++ ds) g g' ↔ ∃ g1, Ran cs g g1 ∧ Ran ds g1 g' := by
  unfold Ran
  rw [runAll_append, run_bind]
  cases (runAll cs).run g with
  | ok _ g1 =>
    constructor
    · exact fun h => ⟨g1, rfl, h⟩
    · rintro ⟨g2, h, h'⟩
      rw [EStateM.Result.ok.injEq] at h
      exact h.2 ▸ h'
  | error e g1 => simp

lemma ran_cons : Ran (c :: cs) g g' ↔ ∃ g1, Ran [c] g g1 ∧ Ran cs g1 g' := by
  rw [← singleton_append, ran_append]

lemma ran_single : Ran [c] g g' ↔ c.run.run g = .ok () g' := by
  rw [Ran, runAll_singleton]

/-! ### Code of handles -/

/-- The code of some handles. -/
def coded (φ : Handle → Option Instruction) (hs : List Handle) : Code := hs.filterMap fun h => (φ h).map (h, ·)

section Coded

variable {φ ψ : Handle → Option Instruction} {h x : Handle} {i : Instruction} {hs ks : List Handle}

@[simp] lemma coded_nil (φ : Handle → Option Instruction) : coded φ [] = [] := rfl

@[simp] lemma coded_append (φ : Handle → Option Instruction) (hs ks : List Handle) :
    coded φ (hs ++ ks) = coded φ hs ++ coded φ ks := filterMap_append

lemma coded_cons (hi : φ h = some i) (hs : List Handle) : coded φ (h :: hs) = (h, i) :: coded φ hs := by
  rw [coded, filterMap_cons, hi]
  rfl

lemma coded_congr (h : ∀ h ∈ hs, φ h = ψ h) : coded φ hs = coded ψ hs :=
  filterMap_congr fun a ha => by rw [h a ha]

lemma coded_filter {p : Handle → Bool} (h : ∀ h ∈ hs, p h = false → φ h = none) : coded φ (hs.filter p) = coded φ hs := by
  induction hs with
  | nil => rfl
  | cons a hs ih =>
    have ih := ih fun h' hm => h h' (mem_cons_of_mem _ hm)
    cases hp : p a with
    | true =>
      rw [filter_cons_of_pos hp]
      exact (coded_append φ [a] (hs.filter p)).trans (by rw [ih]; exact (coded_append φ [a] hs).symm)
    | false =>
      rw [filter_cons_of_neg (by simp [hp]), ih]
      rw [coded, coded, filterMap_cons, h a mem_cons_self hp]
      rfl

lemma handles_coded (h : ∀ h ∈ hs, φ h ≠ none) : (coded φ hs).map Prod.fst = hs := by
  induction hs with
  | nil => rfl
  | cons a hs ih =>
    obtain ⟨i, hi⟩ := ne_none_iff_exists'.1 (h a mem_cons_self)
    rw [coded_cons hi, map_cons, ih fun h' hm => h h' (mem_cons_of_mem _ hm)]

lemma entry_coded (h : ∀ h ∈ hs, φ h ≠ none) (x : Handle) : entry (coded φ hs) x = hs.head?.getD x := by
  rw [← head?_map_fst, handles_coded h]

/-- Code that reads as written. -/
lemma coded_eq {code : Code} (h : ∀ e ∈ code, φ e.1 = some e.2) : coded φ (code.map Prod.fst) = code := by
  induction code with
  | nil => rfl
  | cons e code ih =>
    rw [map_cons, coded_cons (h e mem_cons_self), ih fun e he => h e (mem_cons_of_mem _ he)]

end Coded

/-! ### Exits -/

/-- The exits of a loop that a statement leaves open. -/
structure Exits where
  breaks : List Break := []
  continues : List Handle := []

namespace Exits

/-- The flags of the exits. -/
def flags (e : Exits) : List Handle := e.breaks.map Break.flag

/-- The jumps of the `break`s. -/
def jumps (e : Exits) : List Handle := e.breaks.map Break.jump

/-- Everything that belongs to an exit. -/
def sources (e : Exits) : List Handle := e.flags ++ (e.jumps ++ e.continues)

instance : Append Exits := ⟨fun e e' => ⟨e.breaks ++ e'.breaks, e.continues ++ e'.continues⟩⟩

variable {e e' : Exits} {h : Handle}

@[simp] lemma flags_append : (e ++ e').flags = e.flags ++ e'.flags := map_append

@[simp] lemma jumps_append : (e ++ e').jumps = e.jumps ++ e'.jumps := map_append

@[simp] lemma continues_append : (e ++ e').continues = e.continues ++ e'.continues := rfl

lemma mem_sources : h ∈ e.sources ↔ h ∈ e.flags ∨ h ∈ e.jumps ∨ h ∈ e.continues := by
  rw [sources, mem_append, mem_append]

lemma mem_sources_append : h ∈ (e ++ e').sources ↔ h ∈ e.sources ∨ h ∈ e'.sources := by
  simp only [mem_sources, flags_append, jumps_append, continues_append, mem_append]
  tauto

lemma sources_empty : ({} : Exits).sources = [] := rfl

end Exits

/-- The loop with more exits. -/
def OpenLoop.add (l : OpenLoop) (e : Exits) : OpenLoop :=
  { l with continues := l.continues ++ e.continues, breaks := l.breaks ++ e.breaks }

/-- The open loops, of which the innermost one gets exits. -/
def grow (e : Exits) : List OpenLoop → List OpenLoop
  | [] => []
  | l :: outer => l.add e :: outer

lemma grow_empty (ls : List OpenLoop) : grow {} ls = ls := by
  cases ls with
  | nil => rfl
  | cons l outer => simp [grow, OpenLoop.add]

lemma grow_append (e e' : Exits) (ls : List OpenLoop) : grow (e ++ e') ls = grow e' (grow e ls) := by
  cases ls with
  | nil => rfl
  | cons l outer =>
    simp only [grow, OpenLoop.add, append_assoc]
    rfl

lemma kept_grow (e : Exits) (ls : List OpenLoop) :
    (grow e ls).map (fun l => l.kind.kept) = ls.map fun l => l.kind.kept := by
  cases ls <;> rfl

namespace Generator

variable {inLoop : Bool} {new hs pre post : List Handle} {e e' : Exits} {x y h : Handle}

/-- What the exits in the code `new` look like while their loop is open. -/
structure Leaves (inLoop : Bool) (g : Generator) (new : List Handle) (e : Exits) : Prop where
  outside : inLoop = false → e = {}
  mem : ∀ h ∈ e.sources, h ∈ new
  nodup : e.sources.Nodup
  jumps : ∀ h ∈ e.jumps ++ e.continues, ∃ o : Opcode, o.role = .leap ∧ ∀ x, g.seen x h = some ⟨o, [], .unresolved⟩
  flags : ∀ h ∈ e.flags, ∀ x, g.seen x h = some (bare (.pushBool true))
  next : ∀ h ∈ e.flags, g.code.role? (h + 1) = some .leap ∧ ∃ pre post, new = pre ++ h :: (h + 1) :: post

namespace Leaves

lemma nothing (inLoop : Bool) (g : Generator) (new : List Handle) : Leaves inLoop g new {} :=
  ⟨fun _ => rfl, by simp [Exits.sources_empty], by simp [Exits.sources_empty], by simp [Exits.jumps],
    by simp [Exits.flags], by simp [Exits.flags]⟩

/-- The same exits in a later state. -/
lemma later (h : Leaves inLoop g new e) (hseen : ∀ x, ∀ h ∈ new, ∃ y, g'.seen x h = g.seen y h)
    (hlive : ∀ h ∈ new, h ∈ g.code.live) (hl : g.code.Laid) : Leaves inLoop g' new e := by
  refine ⟨h.outside, h.mem, h.nodup, fun k hk => ?_, fun k hk x => ?_, fun k hk => ?_⟩
  · obtain ⟨o, hr, hk'⟩ := h.jumps k hk
    refine ⟨o, hr, fun x => ?_⟩
    obtain ⟨y, hy⟩ := hseen x k (h.mem k (mem_append_right _ hk))
    rw [hy, hk']
  · obtain ⟨y, hy⟩ := hseen x k (h.mem k (mem_append_left _ hk))
    rw [hy, h.flags k hk]
  · obtain ⟨hr, pre, post, hsplit⟩ := h.next k hk
    refine ⟨?_, pre, post, hsplit⟩
    have hm : k + 1 ∈ new := by rw [hsplit]; simp
    obtain ⟨y, hy⟩ := hseen 0 (k + 1) hm
    obtain ⟨i, hi⟩ := seen_isSome hl (hlive _ hm) y
    rwa [CodeMap.role?, shape?_of_seen (hy.trans hi), ← shape?_of_seen hi]

/-- The exits of two pieces of code, one behind the other. -/
lemma append (h1 : Leaves inLoop g new e) (h2 : Leaves inLoop g hs e') (hd : new.Disjoint hs) :
    Leaves inLoop g (new ++ hs) (e ++ e') where
  outside := fun hin => by rw [h1.outside hin, h2.outside hin]; rfl
  mem := fun k hk => by
    rw [Exits.mem_sources_append] at hk
    exact mem_append.2 (hk.imp (h1.mem k) (h2.mem k))
  nodup := by
    have hperm : (e ++ e').sources.Perm (e.sources ++ e'.sources) := by
      simp only [Exits.sources, Exits.flags_append, Exits.jumps_append, Exits.continues_append]
      grind
    refine hperm.nodup_iff.2 (nodup_append.2 ⟨h1.nodup, h2.nodup, ?_⟩)
    rintro a ha b hb rfl
    exact hd (h1.mem a ha) (h2.mem a hb)
  jumps := fun k hk => by
    have hcase : k ∈ e.jumps ++ e.continues ∨ k ∈ e'.jumps ++ e'.continues := by
      simp only [Exits.jumps_append, Exits.continues_append, mem_append] at hk ⊢
      tauto
    exact hcase.elim (h1.jumps k) (h2.jumps k)
  flags := fun k hk => (mem_append.1 (Exits.flags_append ▸ hk)).elim (h1.flags k) (h2.flags k)
  next := fun k hk => by
    rcases mem_append.1 (Exits.flags_append ▸ hk) with hk | hk
    · obtain ⟨hr, pre, post, rfl⟩ := h1.next k hk
      exact ⟨hr, pre, post ++ hs, by simp⟩
    · obtain ⟨hr, pre, post, rfl⟩ := h2.next k hk
      exact ⟨hr, new ++ pre, post, by simp⟩

end Leaves

end Generator

/-! ### Agreement with the final code -/

section Agreement

variable {φ : Handle → Option Instruction} {ρ : Handle → Handle} {w : Ways} {x y h : Handle} {i : Instruction}
  {e e' : Exits} {hs ks new : List Handle} {inLoop : Bool}

/-- The code reads as in the state, where `ρ` says what the handles have become. -/
def Reads (φ : Handle → Option Instruction) (ρ : Handle → Handle) (g : Generator) (x : Handle) (hs : List Handle) : Prop :=
  ∀ h ∈ hs, ρ h = h ∧ φ h = (g.seen x h).map (rename ρ)

/-- What becomes of a handle that reads as `i?` and may be part of an exit. -/
structure AgreesAt (φ : Handle → Option Instruction) (ρ : Handle → Handle) (w : Ways) (e : Exits)
    (i? : Option Instruction) (h : Handle) : Prop where
  code : h ∉ e.sources → ρ h = h ∧ φ h = i?.map (rename ρ)
  jump : h ∈ e.jumps → ρ h = h ∧ ∃ t, w.leave = some t ∧ φ h = i?.map (aim t)
  again : h ∈ e.continues → ρ h = h ∧ ∃ t, w.again = some t ∧ φ h = i?.map (aim t)
  flag : h ∈ e.flags → ρ h = (if w.flagged then h else h + 1) ∧ φ h = if w.flagged then i? else none

/-- The code agrees with what the state says of some handles, of which `e` are exits. -/
def Agrees (φ : Handle → Option Instruction) (ρ : Handle → Handle) (w : Ways) (g : Generator) (x : Handle) (e : Exits)
    (hs : List Handle) : Prop := ∀ h ∈ hs, AgreesAt φ ρ w e (g.seen x h) h

/-- A handle plays the same part in both. -/
def Exits.Same (e e' : Exits) (h : Handle) : Prop :=
  (h ∈ e.flags ↔ h ∈ e'.flags) ∧ (h ∈ e.jumps ↔ h ∈ e'.jumps) ∧ (h ∈ e.continues ↔ h ∈ e'.continues)

namespace Exits

lemma Same.refl (e : Exits) (h : Handle) : Same e e h := ⟨.rfl, .rfl, .rfl⟩

lemma same_left (hn : h ∉ e'.sources) : Same e (e ++ e') h := by
  simp only [mem_sources, not_or] at hn
  simp [Same, hn]

lemma same_right (hn : h ∉ e.sources) : Same e' (e ++ e') h := by
  simp only [mem_sources, not_or] at hn
  simp [Same, hn]

lemma Same.mem_sources (hs : Same e e' h) : h ∈ e.sources ↔ h ∈ e'.sources := by
  simp only [Exits.mem_sources, hs.1, hs.2.1, hs.2.2]

end Exits

namespace Agrees

section

variable (ha : Agrees φ ρ w g' x e hs) (hsub : ∀ h ∈ ks, h ∈ hs) (hseen : ∀ h ∈ ks, g'.seen x h = g.seen y h)
include ha hsub hseen

/-- A part of the code, as seen from a state in which it was not complete yet. -/
lemma part (he : ∀ h ∈ ks, e'.Same e h) : Agrees φ ρ w g y e' ks := fun h hm => by
  have hat := ha h (hsub h hm)
  obtain ⟨hf, hj, hc⟩ := he h hm
  rw [hseen h hm] at hat
  exact ⟨fun hn => hat.code fun hs => hn ((he h hm).mem_sources.2 hs), fun h' => hat.jump (hj.1 h'),
    fun h' => hat.again (hc.1 h'), fun h' => hat.flag (hf.1 h')⟩

/-- A part of the code without exits. -/
lemma reads (he : ∀ h ∈ ks, h ∉ e.sources) : Reads φ ρ g y ks := fun h hm => by
  rw [← hseen h hm]
  exact (ha h (hsub h hm)).code (he h hm)

end

/-- Everything but a flag is still there. -/
lemma stays (ha : Agrees φ ρ w g x e hs) (hm : h ∈ hs) (hf : h ∉ e.flags ∨ w.flagged = true) (hi : g.seen x h = some i) :
    ρ h = h ∧ ∃ j, φ h = some j := by
  have hat := ha h hm
  rw [hi] at hat
  by_cases hs : h ∈ e.sources
  · rcases Exits.mem_sources.1 hs with hflag | hjump | hagain
    · obtain ⟨hρ, hφ⟩ := hat.flag hflag
      rw [hf.resolve_left fun hn => hn hflag] at hρ hφ
      exact ⟨hρ, i, hφ⟩
    · obtain ⟨hρ, t, -, hφ⟩ := hat.jump hjump
      exact ⟨hρ, _, hφ⟩
    · obtain ⟨hρ, t, -, hφ⟩ := hat.again hagain
      exact ⟨hρ, _, hφ⟩
  · exact ⟨(hat.code hs).1, _, (hat.code hs).2⟩

/-- Where the code is entered: a flag that was taken away is followed by its jump. -/
lemma entry_eq (ha : Agrees φ ρ w g' x e hs) (hl : Leaves inLoop g' hs e) (hsome : ∀ h ∈ hs, ∃ i, g'.seen x h = some i)
    (hnd : hs.Nodup) : entry (coded φ hs) (ρ x) = ρ (hs.head?.getD x) := by
  cases hs with
  | nil => rfl
  | cons h hs =>
    obtain ⟨i, hi⟩ := hsome h mem_cons_self
    by_cases hf : h ∉ e.flags ∨ w.flagged = true
    · obtain ⟨hρ, j, hφ⟩ := ha.stays mem_cons_self hf hi
      rw [coded_cons hφ, entry_cons]
      exact hρ.symm
    · rw [not_or, not_not, Bool.not_eq_true] at hf
      obtain ⟨hr, pre, post, hsplit⟩ := hl.next h hf.1
      obtain rfl : pre = [] := by
        cases pre with
        | nil => rfl
        | cons a pre =>
          obtain ⟨rfl, rfl⟩ := List.cons.inj hsplit
          exact absurd (mem_append_right pre mem_cons_self) (nodup_cons.1 hnd).1
      obtain rfl : hs = (h + 1) :: post := (List.cons.inj hsplit).2
      have hm : h + 1 ∈ h :: (h + 1) :: post := mem_cons_of_mem _ mem_cons_self
      obtain ⟨k, hk⟩ := hsome _ hm
      -- a jump is no flag
      have hjump : h + 1 ∉ e.flags := fun hflag => by
        rw [CodeMap.role?, shape?_of_seen (hl.flags _ hflag x)] at hr
        cases hr
      obtain ⟨-, j, hφ⟩ := ha.stays hm (.inl hjump) hk
      obtain ⟨hρ, hnone⟩ := (ha h mem_cons_self).flag hf.1
      rw [hf.2] at hρ hnone
      change entry (coded φ ([h] ++ (h + 1) :: post)) (ρ x) = ρ h
      rw [coded_append, coded_cons hφ, show coded φ [h] = [] by rw [coded, filterMap_cons, hnone]; rfl, hρ]
      rfl

end Agrees

end Agreement

/-! ### Straight parts -/

section Parts

variable {P : Opcode → Prop} {φ : Handle → Option Instruction} {ρ : Handle → Handle} {x h : Handle} {i : Instruction}
  {new : List Handle} {part : List Command} {b : Generator} {f? : Option String} {symbols : SymbolTable}

/-- A jump of straight code leads to the next instruction or stays inside. -/
lemma Generator.Inward.jump_cases {n : Handle} {t : JumpTest} (hin : Inward P n (fun _ => False) g)
    (hm : h ∈ g.code.live) (hn : n ≤ h) (hi : g.code.instruction? h = some i) (ho : i.opcode = .jump t false) :
    .jump h ∈ g.pending ∨ ∃ d ∈ g.code.live, n ≤ d ∧ i.target = .code d := by
  by_cases hp : .jump h ∈ g.pending
  · exact .inl hp
  · have hr : i.opcode.role = .leap := by rw [ho]; rfl
    -- read with two different handles that are not there yet
    have hread : ∀ z, ∃ d, i.target = .code d ∧ (d = z ∨ d ∈ g.code.live ∧ n ≤ d) := fun z => by
      have hz := seen_of_leap (x := z) hi hr
      rw [if_neg hp] at hz
      rcases (hin.inner z h hm hn _ hz).resolve_right fun hno => hno.1 with hplain | hcall | ⟨-, d, -, ht, hd⟩
      · exact absurd (hplain.1.symm.trans hr) (by simp)
      · exact absurd (hcall.symm.trans hr) (by simp)
      · exact ⟨d, ht, hd⟩
    obtain ⟨d, ht, hd⟩ := hread 0
    obtain ⟨d', ht', hd'⟩ := hread (d + 1)
    obtain rfl : d' = d := Target.code.inj (ht'.symm.trans ht)
    exact .inr ⟨d', (hd'.resolve_left (Nat.ne_of_lt (Nat.lt_succ_self _))).1,
      (hd'.resolve_left (Nat.ne_of_lt (Nat.lt_succ_self _))).2, ht⟩

/-- Straight code reads as it will, once it is known what comes behind it. -/
lemma Generator.Inward.reads_eq (hin : Inward P g.code.nextHandle (fun _ => False) g') (ha : Ahead g new g')
    (hl : g.code.Laid) (hr : Reads φ ρ g' x new) (hm : h ∈ new) : φ h = g'.seen (ρ x) h := by
  have hlive : h ∈ g'.code.live := by
    rw [ha.live]
    exact mem_append_right _ hm
  obtain ⟨i, hi⟩ := hin.legible.laid.instruction?_isSome hlive
  rw [(hr h hm).2]
  have hseen : ∀ z, g'.seen z h = some { i with target := g'.aimed z h i } := fun z => by rw [seen, hi, map_some]
  rcases (hin.inner x h hlive (ha.fresh h hm) _ (hseen x)).resolve_right fun hno => hno.1 with
    hplain | hcall | ⟨t, d, ho, -, -⟩
  · rw [seen_of_plain hi (.inl hplain.1), seen_of_plain hi (.inl hplain.1)]
    rfl
  · rw [seen_of_plain hi (.inr hcall), seen_of_plain hi (.inr hcall)]
    rfl
  · have hleap : i.opcode.role = .leap := by rw [show i.opcode = .jump t false from ho]; rfl
    rw [seen_of_leap hi hleap, seen_of_leap hi hleap]
    rcases hin.jump_cases hlive (ha.fresh h hm) hi ho with hp | ⟨d, hd, hn, ht⟩
    · rw [if_pos hp, if_pos hp]
      rfl
    · have hself : ρ d = d := (hr d (Follows.mem ha hl hd hn)).1
      have haim : (if Link.jump h ∈ g'.pending then Target.code x else i.target).rename ρ =
          if Link.jump h ∈ g'.pending then Target.code (ρ x) else i.target := by
        split_ifs
        · rfl
        · rw [ht, Target.rename, hself]
      rw [map_some, rename, haim]

/-- What straight commands do. -/
structure PartLaid (P : Opcode → Prop) (part : List Command) (g : Generator) (new : List Handle) (g' : Generator) : Prop where
  adds : Adds g new g'
  constructs : g'.constructs = g.constructs
  emits : ∀ {φ : Handle → Option Instruction} {ρ : Handle → Handle} {x : Handle}, Reads φ ρ g' x new →
    Emits P part g g' (coded φ new) (ρ x)

lemma partLaid (hg : Going b f? symbols g) (hlin : ∀ cmd ∈ part, cmd.isLinear = true)
    (hinl : ∀ cmd ∈ part, cmd.Inlines P) (hrun : Ran part g g') (ha : Ahead g new g') : PartLaid P part g new g' := by
  obtain ⟨-, log, hr⟩ := id hg
  obtain ⟨-, old, hs⟩ := id hr
  have hin : Inward P g.code.nextHandle (fun _ => False) g' :=
    ((keptByLinear_inward.runAll hlin hinl hr (.start hs.legible)).of_ok hrun).1
  have hsame := ((ends_runAll_onward part hlin hs hr (.refl g)).of_ok hrun).2.1
  refine ⟨.of_ahead ha hs.legible hin.legible, hsame, fun {φ ρ x} hread => ?_⟩
  have hlisted : coded φ new = g'.listing (ρ x) new := coded_congr fun h hm => hin.reads_eq ha hs.laid hread hm
  have hlive : ∀ h ∈ new, h ∈ g'.code.live := fun h hm => by
    rw [ha.live]
    exact mem_append_right _ hm
  refine ⟨hrun, ⟨new, ha, hlisted⟩, fun e he => ?_⟩
  rw [hlisted, mem_listing] at he
  rw [hlisted, handles_listing hin.legible.laid hlive]
  refine ((hin.inner (ρ x) e.1 (hlive _ he.1) (ha.fresh _ he.1) _ he.2).resolve_right fun hno => hno.1).imp id (Or.imp id ?_)
  rintro ⟨t, d, ho, ht, hd⟩
  exact ⟨t, d, ho, ht, hd.imp id fun hd => Follows.mem ha hs.laid hd.1 hd.2⟩

lemma isLinear_of_worksFrom {floor left : Nat} (hw : worksFrom floor left part g = true) (hrun : Ran part g g') :
    ∀ cmd ∈ part, cmd.isLinear = true := by
  induction part generalizing g with
  | nil => simp
  | cons cmd part ih =>
    obtain ⟨g1, hrun1, hrun2⟩ := ran_cons.1 hrun
    rw [worksFrom, ran_single.1 hrun1, Bool.and_eq_true, Bool.and_eq_true, Bool.and_eq_true] at hw
    exact forall_mem_cons.2 ⟨isLinear_of_isPart hw.1.1.1, ih hw.2 hrun2⟩

/-- A straight part of a statement. -/
lemma Generator.Going.laysPart {left : Nat} {narrowing : Bool} (hg : Going b f? symbols g)
    (hw : works left part g = true) (hreg : keepsRegion narrowing part = true) (hord : ∀ cmd ∈ part, cmd.Orderly symbols)
    (hinl : ∀ cmd ∈ part, cmd.Inlines P) (hrun : Ran part g g') : ∃ new, PartLaid P part g new g' := by
  obtain ⟨new, ha⟩ := ((hg.part hw hreg hord).of_ok hrun).ahead
  exact ⟨new, partLaid hg (isLinear_of_worksFrom hw hrun) hinl hrun ha⟩

end Parts

end NeoScript
