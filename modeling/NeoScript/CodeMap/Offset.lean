import NeoScript.CodeMap.Basic

/-!
# Offsets, widening and the image of a code map

An offset is the distance from a control transfer to its destination. `widen` gives four-byte offsets to
exactly those control transfers that need them, and `image?` writes the finished bytes.
-/

namespace NeoScript.CodeMap

-- Powers are those of the numbers, whatever other instances are in scope.
attribute [local instance (high)] instPowNat

/-- The offsets of a live control transfer under the present addresses. A destination that is not live
counts as distance zero. -/
def offsets (m : CodeMap) (h : Handle) : List Int :=
  match m.start? h, m.target? h with
  | some address, some target =>
    let relative : Option Handle → Int := fun dest =>
      match dest.bind m.start? with
      | some a => (a : Int) - address
      | none => 0
    match target with
    | .unresolved => [0]
    | .code dest => [relative (some dest)]
    | .scriptEnd => [(m.size : Int) - address]
    | .handlers except finalizer => [relative except, relative finalizer]
  | _, _ => []

/-- Whether some offset of `h` does not fit `width` bytes. -/
def misfits (m : CodeMap) (h : Handle) (width : Nat) : Bool :=
  (m.offsets h).any fun offset => !Instruction.offsetFits width offset

/-- The number of bytes of each offset that the opcode is meant to hold. -/
def offsetWidth : Opcode → Nat
  | .tryEnter false => 1
  | .tryEnter true => 4
  | o => o.operandSize

/-- Whether some offset of `h` does not fit the operand of its opcode. -/
def overflows (m : CodeMap) (h : Handle) : Bool :=
  match m.instruction? h with
  | some i => m.misfits h (offsetWidth i.opcode)
  | none => false

/-! ### Widening -/

/-- Whether the instruction of `h` has a sibling with wider offsets. -/
def isNarrow (m : CodeMap) (h : Handle) : Bool :=
  ((m.instruction? h).bind fun i => i.opcode.wide?).isSome

/-- The number of bytes of each offset of an opcode with the wide sibling `wide`. -/
def narrowWidth (o wide : Opcode) : Nat := o.operandSize / if wide = .tryEnter true then 2 else 1

/-- Whether `h` has a sibling with wider offsets and one of its own does not fit. -/
def outgrows (m : CodeMap) (h : Handle) : Bool :=
  match m.instruction? h with
  | some i => i.opcode.wide?.any fun wide => m.misfits h (narrowWidth i.opcode wide)
  | none => false

/-- The live control transfers with short offsets of which one does not fit. -/
def overflowing (m : CodeMap) : List Handle := m.linked.filter m.outgrows

/-- Both ways to find the width of an offset agree where there is a wide sibling. -/
theorem narrowWidth_eq {o w : Opcode} (h : o.wide? = some w) : narrowWidth o w = offsetWidth o := by
  cases o with
  | jump _ far | call far | tryEnter far | tryLeave far =>
    cases far <;> simp [Opcode.wide?] at h
    subst h
    simp [narrowWidth, offsetWidth, Opcode.operandSize, Opcode.operand, Opcode.offsetWidth]
  | _ => simp [Opcode.wide?] at h

theorem outgrows_eq (m : CodeMap) (h : Handle) : m.outgrows h = (m.isNarrow h && m.overflows h) := by
  unfold outgrows isNarrow overflows
  cases m.instruction? h with
  | none => rfl
  | some i =>
    cases hw : i.opcode.wide? with
    | none => simp [hw]
    | some w => simp [hw, narrowWidth_eq hw]

/-- Replaces the instructions of the given handles by their wide siblings. -/
def widenAll (arena : Array Instruction) (hs : List Handle) : Array Instruction :=
  hs.foldl (fun arena h => arena.modify h Instruction.widened) arena

/-- The number of instructions that have a wide sibling. -/
def narrowCount (arena : Array Instruction) : Nat := arena.countP fun i => i.opcode.wide?.isSome

theorem wide?_wide? {o w : Opcode} (h : o.wide? = some w) : w.wide? = none := by
  cases o with
  | jump _ far | call far | tryEnter far | tryLeave far =>
    cases far <;> simp [Opcode.wide?] at h
    subst h
    rfl
  | _ => simp [Opcode.wide?] at h

theorem wide?_widened (i : Instruction) : i.widened.opcode.wide? = none := by
  unfold Instruction.widened
  split
  · next w h => exact wide?_wide? h
  · next h => exact h

theorem narrowCount_modify (arena : Array Instruction) (h : Handle) :
    narrowCount (arena.modify h Instruction.widened) ≤ narrowCount arena ∧
      ((arena[h]?.bind fun i => i.opcode.wide?).isSome →
        narrowCount (arena.modify h Instruction.widened) < narrowCount arena) := by
  unfold narrowCount
  by_cases hlt : h < arena.size
  · have hset : arena.modify h Instruction.widened = arena.set h arena[h].widened hlt := by
      apply Array.ext
      · simp
      · intro j _ _
        by_cases hj : h = j
        · subst hj; simp [Array.getElem_modify]
        · simp [Array.getElem_modify, Array.getElem_set, hj]
    rw [hset, Array.countP_set]
    simp only [wide?_widened, Option.isSome_none, Bool.false_eq_true, if_false, Nat.add_zero]
    refine ⟨Nat.sub_le _ _, fun hs => ?_⟩
    have hs' : arena[h].opcode.wide?.isSome = true := by simpa [hlt] using hs
    have hpos : 0 < arena.countP fun i => i.opcode.wide?.isSome :=
      Array.countP_pos_iff.2 ⟨arena[h], Array.getElem_mem hlt, hs'⟩
    simp only [hs', if_true]
    omega
  · have hnone : arena[h]? = none := by simp [hlt]
    have hmod : arena.modify h Instruction.widened = arena := by
      apply Array.ext
      · simp
      · intro j _ hj
        have : ¬ h = j := fun e => hlt (e ▸ hj)
        simp [Array.getElem_modify, this]
    rw [hmod, hnone]
    simp

theorem narrowCount_widenAll_le (hs : List Handle) (arena : Array Instruction) :
    narrowCount (widenAll arena hs) ≤ narrowCount arena := by
  induction hs generalizing arena with
  | nil => exact Nat.le_refl _
  | cons h hs ih => exact Nat.le_trans (ih _) (narrowCount_modify arena h).1

theorem narrowCount_widenAll_lt {m : CodeMap} {h : Handle} {hs : List Handle}
    (ho : m.overflowing = h :: hs) : narrowCount (widenAll m.arena (h :: hs)) < narrowCount m.arena := by
  have hmem : h ∈ m.overflowing := ho ▸ List.mem_cons_self
  have hn : m.isNarrow h = true := by
    have hout := (List.mem_filter.1 hmem).2
    rw [outgrows_eq, Bool.and_eq_true] at hout
    exact hout.1
  exact Nat.lt_of_le_of_lt (narrowCount_widenAll_le hs _) ((narrowCount_modify m.arena h).2 hn)

/-- Widens every control transfer whose offsets do not fit, until all fit, and lists what was widened. Each
round widens what overflows under the addresses left by the round before. -/
def widen (m : CodeMap) : CodeMap × List Handle :=
  match _h : m.overflowing with
  | [] => (m, [])
  | first :: rest =>
    let r := widen ({ m with arena := widenAll m.arena (first :: rest) }.reflow 0)
    (r.1, first :: rest ++ r.2)
termination_by narrowCount m.arena
decreasing_by
  rw [arena_reflow]
  exact narrowCount_widenAll_lt _h

/-! ### The image -/

/-- The bytes of the live instructions. There are none if a target is not live, if an offset does not fit, if
the bytes are not as many as the addresses say, or if an address would not fit 32 bits. -/
def image? (m : CodeMap) : Option Bytes := do
  let parts ← m.instructions.mapM fun e => e.2.2.encode? e.1 m.size m.start?
  let bytes := parts.flatten
  if bytes.length = m.size ∧ m.size < 2 ^ (32 : Nat) then some bytes else none

end NeoScript.CodeMap
