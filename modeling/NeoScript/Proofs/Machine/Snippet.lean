import NeoScript.Proofs.Generator.Reading
import NeoScript.Proofs.Machine.Basic
import NeoScript.Proofs.Session.Speculation

/-!
# Running snippets

`Snippet.Yields` says what a snippet does by its structure: a part is skipped if its test holds, a loop runs as long as
its test says so. `Snippet.layout` is the code of a snippet, with the handles and the jumps that it is emitted with.
The machine that runs this code does what the structure says.
-/

namespace NeoScript

open Generator Instruction Machine List Option Bool Snippet

/-! ### What a snippet does -/

namespace Snippet

/-- From the operands `m` the snippet leaves the operands `r`, or faults if `r` is none. -/
inductive Yields : Snippet → Operands → Option Operands → Prop
  | nil {m} : Yields nil m (some m)
  | op {o m m'} (h : perform o [] m = some m') : Yields (op o) m (some m')
  | opFault {o m} (ho : onOperands o = true) (h : perform o [] m = none) : Yields (op o) m none
  | data {o operand m m'} (h : perform o operand m = some m') : Yields (data o operand) m (some m')
  | dataFault {o operand m} (ho : onOperands o = true) (h : perform o operand m = none) : Yields (data o operand) m none
  | seq {first second m m' r} : Yields first m (some m') → Yields second m' r → Yields (seq first second) m r
  | seqFault {first second m} : Yields first m none → Yields (seq first second) m none
  | skipped {test body m m'} (h : (verdict test).run m = some (true, m')) : Yields (skip test body) m (some m')
  | passed {test body m m' r} (h : (verdict test).run m = some (false, m')) :
      Yields body m' r → Yields (skip test body) m r
  | skipFault {test body m} (h : (verdict test).run m = none) : Yields (skip test body) m none
  | left {body test again m m₁ m'} : Yields test m (some m₁) → (verdict again).run m₁ = some (false, m') →
      Yields (loop body test again) m (some m')
  | round {body test again m m₁ m₂ m₃ r} : Yields test m (some m₁) → (verdict again).run m₁ = some (true, m₂) →
      Yields body m₂ (some m₃) → Yields (loop body test again) m₃ r → Yields (loop body test again) m r
  | testFault {body test again m} : Yields test m none → Yields (loop body test again) m none
  | againFault {body test again m m₁} : Yields test m (some m₁) → (verdict again).run m₁ = none →
      Yields (loop body test again) m none
  | bodyFault {body test again m m₁ m₂} : Yields test m (some m₁) → (verdict again).run m₁ = some (true, m₂) →
      Yields body m₂ none → Yields (loop body test again) m none

/-- Performs opcodes without operand one after the other. -/
def performAll : List Opcode → Operands → Option Operands
  | [], m => some m
  | o :: os, m => (perform o [] m).bind (performAll os)

lemma yields_ops {os : List Opcode} {m m' : Operands} (h : performAll os m = some m') : Yields (ops os) m (some m') := by
  induction os generalizing m with
  | nil => exact h ▸ .nil
  | cons o os ih =>
    obtain ⟨m₁, ho, hos⟩ := bind_eq_some_iff.1 h
    exact .seq (.op ho) (ih hos)

lemma yields_ops_fault {os : List Opcode} {m : Operands} (hos : ∀ o ∈ os, onOperands o = true)
    (h : performAll os m = none) : Yields (ops os) m none := by
  induction os generalizing m with
  | nil => cases h
  | cons o os ih =>
    rw [performAll] at h
    cases ho : perform o [] m with
    | none => exact .seqFault (.opFault (hos o mem_cons_self) ho)
    | some m' =>
      rw [ho] at h
      exact .seq (.op ho) (ih (fun o' ho' => hos o' (mem_cons_of_mem _ ho')) h)

lemma Yields.append {a b : Snippet} {m m' : Operands} {r : Option Operands} (ha : Yields a m (some m'))
    (hb : Yields b m' r) : Yields (a ++ b) m r := .seq ha hb

lemma Yields.assoc {a b c : Snippet} {m : Operands} {r : Option Operands} (h : Yields (a ++ (b ++ c)) m r) :
    Yields (a ++ b ++ c) m r := by
  cases h with
  | seq ha hbc =>
    cases hbc with
    | seq hb hc => exact .seq (.seq ha hb) hc
    | seqFault hb => exact .seqFault (.seq ha hb)
  | seqFault ha => exact .seqFault (.seqFault ha)

/-! ### The code of a snippet -/

/-- The code of a snippet whose first handle is `n`, behind which comes `x`. -/
def layout : Snippet → (n x : Handle) → Code
  | nil, _, _ => []
  | op o, n, _ => [(n, bare o)]
  | data o operand, n, _ => [(n, ⟨o, operand, .unresolved⟩)]
  | seq first second, n, x =>
    let rest := second.layout (n + first.length) x
    first.layout n (entry rest x) ++ rest
  | skip test body, n, x => (n, goto test x) :: body.layout (n + 1) x
  | loop body test again, n, _ =>
    let t := n + 1 + body.length
    (n, goto .always t) ::
      (body.layout (n + 1) t ++ (test.layout t (t + test.length) ++ [(t + test.length, goto again (n + 1))]))

@[simp] lemma handles_layout (s : Snippet) (n x : Handle) : (s.layout n x).map Prod.fst = range' n s.length := by
  induction s generalizing n x with
  | nil => rfl
  | op o => rfl
  | data o operand => rfl
  | seq first second ih1 ih2 => simp [layout, length, ih1, ih2]
  | skip test body ih => simp [layout, length, ih, range'_succ]
  | loop body test again ih1 ih2 =>
    have hlast : [n + 1 + body.length + test.length] = range' (n + 1 + body.length + test.length) 1 := rfl
    simp only [layout, length, map_cons, map_append, ih1, ih2, map_nil]
    rw [hlast, range'_append_1, range'_append_1, ← range'_succ]
    congr 1

lemma entry_layout (s : Snippet) (n x y : Handle) : entry (s.layout n x) y = (range' n s.length).head?.getD y := by
  rw [entry, ← head?_map, handles_layout]

/-- A snippet is entered at its first handle, also if it is empty and that is the handle behind it. -/
lemma entry_layout_next (s : Snippet) (n : Handle) : entry (s.layout n (n + s.length)) (n + s.length) = n := by
  rw [entry_layout]
  cases s.length <;> rfl

end Snippet

/-! ### Emitting -/

namespace Generator

variable {g g' g'' : Generator} {a b s : Snippet} {h x : Handle}

/-- `g'` is `g` with the code of the snippet behind it. -/
structure Spells (s : Snippet) (g g' : Generator) : Prop extends Adds g (List.range' g.next s.length) g' where
  next : g'.next = g.next + s.length
  reads : ∀ x, g'.listing x (List.range' g.next s.length) = s.layout g.next x

lemma Adds.linkNext {new : List Handle} (ha : Adds g new g') (hm : h ∈ new) (hr : g'.code.role? h = some .leap) :
    Adds g new (g'.linkNext h) := by
  refine ⟨ha.legible.linkNext (ha.mem_live hm) hr, ha.live, ha.grown, fun x k hk => ?_⟩
  have hne : k ≠ h := by
    have hnodup := ha.live ▸ ha.legible.laid.nodup
    exact fun he => (nodup_append.1 hnodup).2.2 k hk h hm he
  rw [← ha.seen x k hk]
  exact seen_defer_of_ne fun he => hne (some.inj he).symm

namespace Spells

lemma nil (hl : Legible g) : Spells .nil g g := ⟨.refl hl, rfl, fun _ => rfl⟩

lemma still (hs : Spells s g g') (hc : g''.code = g'.code) (hp : g''.pending = g'.pending)
    (hw : g''.waiting = g'.waiting) : Spells s g g'' where
  toAdds := hs.toAdds.still hc hp hw
  next := by rw [Generator.next, hc]; exact hs.next
  reads := fun x => (listing_congr fun _ _ => seen_still hc hp).trans (hs.reads x)

lemma settle (hs : Spells s g g') (pops : Nat) (result : ValueType) : Spells s g (g'.settle pops result) :=
  hs.still rfl rfl rfl

lemma instruction {o : Opcode} {operand : Bytes} (hl : Legible g) (ho : o.role = .plain) :
    Spells (.data o operand) g (g.append ⟨o, operand, .unresolved⟩) where
  toAdds := .append hl _
  next := nextHandle_append _ _
  reads := fun x => (listing_cons (hl.seen_append_next (fun _ => rfl) (by simp [ho])) []).trans rfl

lemma emit {o : Opcode} (hl : Legible g) (ho : o.role = .plain) : Spells (.op o) g (g.emit o) := by
  have h : Spells (.data o []) g (g.emit o) := instruction hl ho
  exact ⟨h.toAdds, h.next, h.reads⟩

lemma op {o : Opcode} (hl : Legible g) (ho : o.role = .plain) (pops : Nat) (result : Option ValueType) :
    Spells (.op o) g (g.op o pops result) := (emit hl ho).still rfl rfl rfl

lemma seq (ha : Spells a g g') (hb : Spells b g' g'') : Spells (a ++ b) g g'' := by
  have hrange : range' g.next (a ++ b).length = range' g.next a.length ++ range' g'.next b.length := by
    rw [ha.next, range'_append_1]
    rfl
  have hadds : Adds g (range' g.next a.length ++ range' g'.next b.length) g'' := ha.toAdds.trans hb.toAdds
  refine ⟨hrange ▸ hadds, by rw [hb.next, ha.next, add_assoc]; rfl, fun x => ?_⟩
  rw [hrange, listing_append, hb.reads, hb.toAdds.listing fun h hm => ha.toAdds.mem_live hm, ha.reads]
  rw [← entry_layout b g'.next x x, ha.next]
  rfl

/-- A part that may be skipped: the jump over it leads to what comes next. -/
lemma skip {test : JumpTest} (hl : Legible g) (hs : Spells s (g.emitJump test) g') :
    Spells (.skip test s) g (g'.linkNext g.next) := by
  have hjump : (g.emitJump test).next = g.next + 1 := nextHandle_append _ _
  have hadds : Adds g (g.next :: range' (g.next + 1) s.length) g' := (Adds.append hl _).trans (hjump ▸ hs.toAdds)
  have hseen : ∀ x, g'.seen x g.next = some (.unaimed test) := fun x =>
    (hs.seen x g.next ((Adds.append hl _).mem_live mem_cons_self)).trans
      (hl.seen_append_next (fun _ => rfl) (by simp [Opcode.role]))
  have hrole : g'.code.role? g.next = some .leap := by
    rw [CodeMap.role?, shape?_of_seen (hseen 0)]
    rfl
  have hlink : ∀ k ∈ [g.next], g'.code.role? k = some .leap := fun k hk => mem_singleton.1 hk ▸ hrole
  have hself : ∀ x, (g'.linkNext g.next).seen x g.next = some (goto test x) := fun x =>
    (seen_linkAll hlink (hseen x)).trans (by rw [if_pos mem_cons_self])
  refine ⟨hadds.linkNext mem_cons_self hrole, hs.next.trans (by rw [hjump, add_right_comm]; rfl), fun x => ?_⟩
  rw [Snippet.length, range'_succ, listing_cons (hself x), Snippet.layout]
  refine congrArg _ ?_
  rw [← hjump, ← hs.reads x]
  refine listing_congr fun h hm => ?_
  obtain ⟨i, hi⟩ := seen_isSome hs.legible.laid (hs.mem_live hm) x
  have hne : h ∉ [g.next] := by
    rw [hjump, mem_range'_1] at hm
    exact fun he => Nat.not_succ_le_self _ (mem_singleton.1 he ▸ hm.1)
  exact (seen_linkAll hlink hi).trans (by rw [if_neg hne, hi])

/-- A loop is a part that is always skipped at first, the test, and the jump back. -/
lemma loop {body test : Snippet} {again : JumpTest} (hbody : Spells (.skip .always body) g g') (htest : Spells test g' g'') :
    Spells (.loop body test again) g (g''.emitTarget (.jump again false) (.code (g.next + 1))) := by
  have hlast : Adds g'' [g''.next] (g''.emitTarget (.jump again false) (.code (g.next + 1))) := .append htest.legible _
  have hrange : range' g.next (Snippet.loop body test again).length =
      range' g.next (Snippet.skip .always body).length ++ (range' g'.next test.length ++ [g''.next]) := by
    have hone : [g''.next] = range' g''.next 1 := rfl
    rw [hone, htest.next, range'_append_1, hbody.next, range'_append_1]
    congr 1
    simp only [Snippet.length]
    omega
  have hnext : g''.next = g.next + 1 + body.length + test.length := by
    rw [htest.next, hbody.next, Snippet.length]
    grind
  have hadds := hbody.toAdds.trans (htest.toAdds.trans hlast)
  have htests : ∀ h ∈ range' g'.next test.length, h ∈ g''.code.live := fun h hm => htest.mem_live hm
  refine ⟨hrange ▸ hadds, ?_, fun x => ?_⟩
  · rw [show (g''.emitTarget _ _).next = g''.next + 1 from nextHandle_append _ _, hnext, Snippet.length]
    grind
  have hself : (g''.emitTarget (.jump again false) (.code (g.next + 1))).seen x g''.next = some (goto again (g.next + 1)) :=
    htest.legible.seen_append_leap rfl
  have hnext' : g'.next = g.next + 1 + body.length := by
    rw [hbody.next, Snippet.length]
    grind
  rw [hrange, listing_append, listing_append, hlast.listing htests, htest.reads, listing_cons hself,
    (htest.toAdds.trans hlast).listing fun h hm => hbody.mem_live hm, hbody.reads]
  have hfirst : (range' g'.next test.length ++ [g''.next]).head?.getD x = g'.next := by
    rw [htest.next]
    cases test.length <;> rfl
  rw [hfirst, hnext', hnext]
  rfl

lemma emitSnippet (hl : Legible g) (hp : s.proper = true) : Spells s g (g.emitSnippet s) := by
  induction s generalizing g with
  | nil => exact nil hl
  | op o =>
    simp only [proper, and_eq_true, beq_iff_eq] at hp
    exact emit hl hp.1.1
  | data o operand =>
    simp only [proper, and_eq_true, beq_iff_eq] at hp
    exact instruction hl hp.1.1
  | seq first second ih1 ih2 =>
    simp only [proper, and_eq_true] at hp
    have h1 := ih1 hl hp.1
    exact h1.seq (ih2 h1.legible hp.2)
  | skip test body ih => exact skip hl (ih (hl.append _) hp)
  | loop body test again ih1 ih2 =>
    simp only [proper, and_eq_true] at hp
    have hbody := skip hl (ih1 (hl.append (.unaimed .always)) hp.1.1)
    have hnext : (g.emitJump .always).next = g.next + 1 := nextHandle_append _ _
    have h : Spells (.loop body test again) g _ := loop hbody (ih2 hbody.legible hp.1.2)
    rwa [← hnext] at h

end Spells

end Generator

/-! ### The machine runs snippets -/

namespace Machine

variable {code code' a b : Code} {x x' pc next : Handle} {c d : Config} {o : Opcode} {operand : Bytes} {m m' : Operands}

lemma fetch_append (a b : Code) (x pc : Handle) : fetch (a ++ b) x pc = (fetch a (entry b x) pc).or (fetch b x pc) := by
  induction a with
  | nil => rfl
  | cons e a ih =>
    rw [cons_append, fetch, fetch, entry_append]
    split_ifs
    · rfl
    · exact ih

lemma mem_of_fetch {r : Instruction × Handle} (h : fetch code x pc = some r) : pc ∈ code.map Prod.fst := by
  induction code with
  | nil => cases h
  | cons e code ih =>
    rw [fetch] at h
    split_ifs at h with he
    · exact he ▸ mem_cons_self
    · exact mem_cons_of_mem _ (ih h)

lemma fetch_of_mem (h : pc ∈ code.map Prod.fst) (x : Handle) : ∃ r, fetch code x pc = some r := by
  induction code with
  | nil => cases h
  | cons e code ih =>
    rw [fetch]
    split_ifs with he
    · exact ⟨_, rfl⟩
    · exact ih ((mem_cons.1 h).resolve_left fun hp => he hp.symm)

lemma fetch_eq_none (h : pc ∉ code.map Prod.fst) : fetch code x pc = none :=
  eq_none_iff_forall_ne_some.2 fun _ hr => h (mem_of_fetch hr)

/-- Code that is a part of other code. -/
def Within (code : Code) (x : Handle) (code' : Code) (x' : Handle) : Prop :=
  ∀ pc r, fetch code x pc = some r → fetch code' x' pc = some r

lemma within_left (a b : Code) (x : Handle) : Within a (entry b x) (a ++ b) x := fun pc r h => by
  rw [fetch_append, h]
  rfl

lemma within_right (hd : ∀ h ∈ b.map Prod.fst, h ∉ a.map Prod.fst) (x : Handle) : Within b x (a ++ b) x := fun pc r h => by
  rw [fetch_append, fetch_eq_none (hd pc (mem_of_fetch h)), h]
  rfl

namespace Within

lemma trans {code'' : Code} {x'' : Handle} (h : Within code x code' x') (h' : Within code' x' code'' x'') :
    Within code x code'' x'' := fun pc r hr => h' pc r (h pc r hr)

lemma step (hw : Within code x code' x') (h : step code x c = some d) : step code' x' c = some d := by
  obtain ⟨r, hr, hd⟩ := bind_eq_some_iff.1 h
  rwa [Machine.step, hw _ _ hr]

lemma reaches (hw : Within code x code' x') (h : Reaches code x c d) : Reaches code' x' c d :=
  Relation.ReflTransGen.mono (fun _ _ => hw.step) _ _ h

lemma faults (hw : Within code x code' x') (h : Faults code x c) : Faults code' x' c := by
  obtain ⟨d, hr, hm, hd⟩ := h
  obtain ⟨r, hfetch⟩ := fetch_of_mem hm x
  refine ⟨d, hw.reaches hr, mem_of_fetch (hw _ _ hfetch), ?_⟩
  rw [Machine.step, hfetch] at hd
  rwa [Machine.step, hw _ _ hfetch]

end Within

lemma Faults.of_reaches (hr : Reaches code x c d) (hf : Faults code x d) : Faults code x c := by
  obtain ⟨e, he, hm, hs⟩ := hf
  exact ⟨e, hr.trans he, hm, hs⟩

/-- The state with other operands. -/
def State.put (s : State) (m : Operands) : State := { s with toOperands := m }

lemma onOperands_of_perform (h : perform o operand m = some m') : onOperands o = true := by
  cases o <;> first | rfl | cases h

lemma execute_eq {i : Instruction} (ho : onOperands i.opcode = true) (s : State) :
    execute i s = (perform i.opcode i.operand s.toOperands).map s.put := by
  unfold execute
  split
  case h_5 => cases perform i.opcode i.operand s.toOperands <;> rfl
  all_goals
    next h =>
      rw [h] at ho
      cases ho

lemma advance_eq {i : Instruction} (ho : onOperands i.opcode = true) (c : Config) :
    advance i next c = (perform i.opcode i.operand c.state.toOperands).map fun m => ⟨next, c.state.put m, c.callers⟩ := by
  unfold advance
  split
  case h_4 =>
    rw [execute_eq ho]
    cases perform i.opcode i.operand c.state.toOperands <;> rfl
  all_goals
    next h =>
      rw [h] at ho
      cases ho

/-- From `pc` and the operands `m` the machine gets to `y` and the operands `r`, or faults if `r` is none, whatever the
slots are and whoever called. -/
def Goes (code : Code) (x pc y : Handle) (m : Operands) (r : Option Operands) : Prop :=
  ∀ (s : State) (callers : List Caller),
    match r with
    | some m' => Reaches code x ⟨pc, s.put m, callers⟩ ⟨y, s.put m', callers⟩
    | none => Faults code x ⟨pc, s.put m, callers⟩

namespace Goes

variable {y z t : Handle} {r : Option Operands} {test : JumpTest} {u : Bool}

lemma refl : Goes code x pc pc m (some m) := fun _ _ => .refl

lemma trans (h : Goes code x pc y m (some m')) (h' : Goes code x y z m' r) : Goes code x pc z m r := fun s callers => by
  cases r with
  | some m'' => exact (h s callers).trans (h' s callers)
  | none => exact (h' s callers).of_reaches (h s callers)

lemma fault (h : Goes code x pc y m none) : Goes code x pc z m none := h

lemma within (h : Goes code x pc y m r) (hw : Within code x code' x') : Goes code' x' pc y m r := fun s callers => by
  cases r with
  | some m' => exact hw.reaches (h s callers)
  | none => exact hw.faults (h s callers)

lemma of_step (h : ∀ (s : State) (callers : List Caller),
    step code x ⟨pc, s.put m, callers⟩ = some ⟨y, s.put m', callers⟩) : Goes code x pc y m (some m') := fun s callers =>
  .single (h s callers)

lemma of_fault (hm : pc ∈ code.map Prod.fst)
    (h : ∀ (s : State) (callers : List Caller), step code x ⟨pc, s.put m, callers⟩ = none) :
    Goes code x pc y m none := fun s callers => ⟨_, .refl, hm, h s callers⟩

lemma instruction (hf : fetch code x pc = some (⟨o, operand, .unresolved⟩, next)) (h : perform o operand m = some m') :
    Goes code x pc next m (some m') := by
  refine of_step fun s callers => ?_
  rw [step, hf]
  refine (advance_eq (onOperands_of_perform h) _).trans ?_
  change (perform o operand m).map _ = _
  rw [h]
  rfl

lemma instruction_fault (hf : fetch code x pc = some (⟨o, operand, .unresolved⟩, next)) (ho : onOperands o = true)
    (h : perform o operand m = none) : Goes code x pc y m none := by
  refine of_fault (mem_of_fetch hf) fun s callers => ?_
  rw [step, hf]
  refine (advance_eq ho _).trans ?_
  change (perform o operand m).map _ = _
  rw [h]
  rfl

lemma jump (hf : fetch code x pc = some (goto test t, next)) (h : (verdict test).run m = some (u, m')) :
    Goes code x pc (if u then t else next) m (some m') := by
  refine of_step fun s callers => ?_
  rw [step, hf]
  change ((verdict test).run m).bind _ = _
  rw [h]
  cases u <;> rfl

lemma jump_fault (hf : fetch code x pc = some (goto test t, next)) (h : (verdict test).run m = none) :
    Goes code x pc y m none := by
  refine of_fault (mem_of_fetch hf) fun s callers => ?_
  rw [step, hf]
  change ((verdict test).run m).bind _ = _
  rw [h]
  rfl

end Goes

end Machine

namespace Snippet

/-- Where a snippet decides what to do: a loop first goes to its test. -/
def head : Snippet → (n x : Handle) → Handle
  | loop body _ _, n, _ => n + 1 + body.length
  | s, n, x => entry (s.layout n x) x

lemma goes_head (s : Snippet) (n x : Handle) (m : Operands) :
    Goes (s.layout n x) x (entry (s.layout n x) x) (s.head n x) m (some m) := by
  cases s with
  | loop body test again => exact .jump (u := true) (if_pos rfl) rfl
  | _ => exact .refl

lemma disjoint_layout {a b : Snippet} {n k x y : Handle} (h : n + a.length ≤ k) :
    ∀ d ∈ (b.layout k y).map Prod.fst, d ∉ (a.layout n x).map Prod.fst := by
  intro d hb ha
  rw [handles_layout, mem_range'_1] at ha hb
  exact absurd (lt_of_lt_of_le ha.2 h) (not_lt.2 hb.1)

lemma goes_entry {s : Snippet} {m : Operands} {r : Option Operands} {n x : Handle}
    (h : Goes (s.layout n x) x (s.head n x) x m r) : Goes (s.layout n x) x (entry (s.layout n x) x) x m r :=
  (goes_head s n x m).trans h

lemma within_skip (test : JumpTest) (body : Snippet) (n x : Handle) :
    Within (body.layout (n + 1) x) x ((skip test body).layout n x) x := by
  refine within_right (a := [(n, goto test x)]) (fun d hd hn => ?_) x
  rw [handles_layout, mem_range'_1] at hd
  exact Nat.not_succ_le_self _ (mem_singleton.1 hn ▸ hd.1)

section Loop

variable (body test : Snippet) (again : JumpTest) (n x : Handle)

/-- Where the test of a loop starts. -/
abbrev testAt : Handle := n + 1 + body.length

/-- Where the jump that closes a loop is. -/
abbrev closeAt : Handle := testAt body n + test.length

/-- What stands behind the body of a loop. -/
abbrev closing : Code :=
  test.layout (testAt body n) (closeAt body test n) ++ [(closeAt body test n, goto again (n + 1))]

lemma within_body : Within (body.layout (n + 1) (testAt body n)) (testAt body n) ((loop body test again).layout n x) x := by
  have hentry : entry (closing body test again n) x = testAt body n := by
    rw [entry_append]
    exact entry_layout_next test _
  have h := within_left ((skip .always body).layout n (testAt body n)) (closing body test again n) x
  rw [hentry] at h
  exact (within_skip _ _ _ _).trans h

lemma within_closing : Within (closing body test again n) x ((loop body test again).layout n x) x := by
  refine within_right (a := (skip .always body).layout n (testAt body n)) (fun d hd => ?_) x
  have hd' : d ∈ range' (testAt body n) (test.length + 1) := by
    rw [map_append, handles_layout] at hd
    rwa [← range'_append_1]
  rw [handles_layout, mem_range'_1]
  rw [mem_range'_1] at hd'
  exact fun hn => absurd hn.2 (not_lt.2 (le_trans (by simp only [length]; grind) hd'.1))

lemma within_test : Within (test.layout (testAt body n) (closeAt body test n)) (closeAt body test n)
    ((loop body test again).layout n x) x := (within_left _ _ _).trans (within_closing body test again n x)

lemma fetch_close : fetch ((loop body test again).layout n x) x (closeAt body test n) = some (goto again (n + 1), x) := by
  refine within_closing body test again n x _ _ ?_
  refine within_right (b := [(closeAt body test n, goto again (n + 1))]) (fun d hd hn => ?_) x _ _ (if_pos rfl)
  rw [handles_layout, mem_range'_1] at hn
  exact lt_irrefl _ (mem_singleton.1 hd ▸ hn.2)

variable {body test again} {m m₁ m₂ : Operands} {r : Option Operands} {u : Bool}

/-- From the test of a loop the machine gets to the jump that closes it. -/
lemma goes_test (h : ∀ n x, Goes (test.layout n x) x (test.head n x) x m r) :
    Goes ((loop body test again).layout n x) x (testAt body n) (closeAt body test n) m r := by
  have h' := goes_entry (h (testAt body n) (closeAt body test n))
  rw [entry_layout_next] at h'
  exact h'.within (within_test body test again n x)

/-- The test of a loop holds and the machine goes back to the body. -/
lemma goes_back (h : ∀ n x, Goes (test.layout n x) x (test.head n x) x m (some m₁))
    (hv : (verdict again).run m₁ = some (true, m₂)) :
    Goes ((loop body test again).layout n x) x (testAt body n) (n + 1) m (some m₂) :=
  (goes_test n x h).trans (.jump (u := true) (fetch_close body test again n x) hv)

lemma goes_body (h : ∀ n x, Goes (body.layout n x) x (body.head n x) x m r) :
    Goes ((loop body test again).layout n x) x (n + 1) (testAt body n) m r := by
  have h' := goes_entry (h (n + 1) (testAt body n))
  rw [entry_layout_next] at h'
  exact h'.within (within_body body test again n x)

end Loop

/-- **The machine does what the structure of a snippet says.** -/
lemma Yields.goes {s : Snippet} {m : Operands} {r : Option Operands} (h : Yields s m r) (n x : Handle) :
    Goes (s.layout n x) x (s.head n x) x m r := by
  induction h generalizing n x with
  | nil => exact .refl
  | op h => exact .instruction (if_pos rfl) h
  | opFault ho h => exact .instruction_fault (if_pos rfl) ho h
  | data h => exact .instruction (if_pos rfl) h
  | dataFault ho h => exact .instruction_fault (if_pos rfl) ho h
  | @seq first second m m' r ha hb iha ihb =>
    have h1 := (goes_entry (iha n _)).within (within_left _ (second.layout (n + first.length) x) x)
    rw [← entry_append] at h1
    exact h1.trans ((goes_entry (ihb _ x)).within (within_right (disjoint_layout (le_refl _)) x))
  | @seqFault first second m ha iha =>
    have h1 := (goes_entry (iha n _)).within (within_left _ (second.layout (n + first.length) x) x)
    rw [← entry_append] at h1
    exact h1.fault
  | skipped h => exact .jump (u := true) (if_pos rfl) h
  | @passed test body m m' r h hb ih =>
    have hjump : Goes ((skip test body).layout n x) x n (entry (body.layout (n + 1) x) x) m (some m') :=
      .jump (u := false) (if_pos rfl) h
    exact hjump.trans ((goes_entry (ih (n + 1) x)).within (within_skip test body n x))
  | skipFault h => exact .jump_fault (if_pos rfl) h
  | left ht h iht => exact (goes_test n x iht).trans (.jump (u := false) (fetch_close _ _ _ n x) h)
  | round ht h hb hl iht ihb ihl => exact (goes_back n x iht h).trans ((goes_body n x ihb).trans (ihl n x))
  | testFault ht iht => exact (goes_test n x iht).fault
  | againFault ht h iht => exact (goes_test n x iht).trans (.jump_fault (fetch_close _ _ _ n x) h)
  | bodyFault ht h hb iht ihb => exact (goes_back n x iht h).trans (goes_body n x ihb).fault

end Snippet

/-! ### Operations of the generator -/

/-- **What the code of an operation does.** The operation is carried out in `g`. Whatever instruction `x` comes behind its
code, the machine that enters the code with the operands `m` gets to `x` with the operands `r`, or faults if `r` is none. -/
def Emission.Yields (op : Emission Unit) (g : Generator) (m : Operands) (r : Option Operands) : Prop :=
  ∃ g' new, op.run g = .ok () g' ∧ Adds g new g' ∧
    ∀ x, Goes (g'.listing x new) x (entry (g'.listing x new) x) x m r

lemma Underway.legible {g : Generator} (hg : Underway g) : Legible g := by
  obtain ⟨b, log, ⟨-, new, hs⟩, -⟩ := hg.ready
  exact hs.legible

namespace Generator

variable {op : Emission Unit} {f : Unit → Emission Unit} {s a b : Snippet} {g g' g'' : Generator}

/-- The operation is carried out in `g` and emits the snippet. -/
structure Prints (op : Emission Unit) (s : Snippet) (g g' : Generator) : Prop where
  run : op.run g = .ok () g'
  spells : Spells s g g'

namespace Prints

lemma bind (h : Prints op a g g') (h' : Prints (f ()) b g' g'') : Prints (op >>= f) (a ++ b) g g'' := by
  refine ⟨?_, h.spells.seq h'.spells⟩
  rw [run_bind, h.run]
  exact h'.run

lemma get {k : Generator → Emission Unit} (h : Prints (k g) s g g') : Prints (MonadState.get >>= k) s g g' :=
  ⟨h.run, h.spells⟩

/-- What an operation does about the types is not seen in the code. -/
lemma andThen {k : Generator → Generator} (h : Prints op s g g') (hc : (k g').code = g'.code)
    (hp : (k g').pending = g'.pending) (hw : (k g').waiting = g'.waiting) :
    Prints (op >>= fun _ => modify k) s g (k g') := by
  refine ⟨?_, h.spells.still hc hp hw⟩
  rw [run_bind, h.run]
  rfl

lemma yields {m : Operands} {r : Option Operands} (h : Prints op s g g') (hy : s.Yields m r) : Emission.Yields op g m r := by
  refine ⟨g', _, h.run, h.spells.toAdds, fun x => ?_⟩
  rw [h.spells.reads]
  exact goes_entry (hy.goes _ x)

end Prints

end Generator

end NeoScript
