import NeoScript.Proofs.Generator.Linking

/-!
# What widening keeps

Widening replaces instructions by their wide siblings: order, targets and operands stay, only sizes and addresses
change.
-/

namespace NeoScript

open Instruction Opcode

lemma Instruction.widened_widened (i : Instruction) : i.widened.widened = i.widened := by
  conv => lhs; rw [widened, CodeMap.wide?_widened]

@[simp] lemma Instruction.target_widened (i : Instruction) : i.widened.target = i.target := by
  unfold widened
  split <;> rfl

@[simp] lemma Instruction.role_widened (i : Instruction) : i.widened.opcode.role = i.opcode.role := by
  unfold widened
  split
  · next w h =>
    cases ho : i.opcode with
    | jump test far | call far | tryEnter far | tryLeave far =>
      rw [ho] at h
      cases far <;> simp [wide?] at h
      subst h
      rfl
    | _ => simp [ho, wide?] at h
  · rfl

lemma Instruction.widened_of_plain {i : Instruction} (hr : i.opcode.role = .plain) : i.widened = i := by
  unfold widened
  split
  · next w h => cases ho : i.opcode <;> simp_all [wide?, role]
  · rfl

namespace CodeMap

/-- The map `m'` is `m` with some instructions widened. -/
structure Widened (m m' : CodeMap) : Prop where
  laid : m'.Laid
  live : m'.live = m.live
  instruction : ∀ h i', m'.instruction? h = some i' → ∃ i, m.instruction? h = some i ∧ (i' = i ∨ i' = i.widened)

lemma Widened.refl {m : CodeMap} (hl : m.Laid) : Widened m m := ⟨hl, rfl, fun _ i hi => ⟨i, hi, .inl rfl⟩⟩

lemma Widened.trans {m m' m'' : CodeMap} (h : Widened m m') (h' : Widened m' m'') : Widened m m'' := by
  refine ⟨h'.laid, h'.live.trans h.live, fun x i'' hi'' => ?_⟩
  obtain ⟨i', hi', hw'⟩ := h'.instruction x i'' hi''
  obtain ⟨i, hi, hw⟩ := h.instruction x i' hi'
  refine ⟨i, hi, ?_⟩
  rcases hw with rfl | rfl
  · exact hw'
  · rw [widened_widened, or_self] at hw'
    exact .inr hw'

@[simp] lemma size_widenAll (arena : Array Instruction) (hs : List Handle) : (widenAll arena hs).size = arena.size := by
  induction hs generalizing arena with
  | nil => rfl
  | cons h hs ih => exact (ih _).trans Array.size_modify

lemma getElem?_widenAll {arena : Array Instruction} {hs : List Handle} {h : Handle} {i' : Instruction}
    (hi : (widenAll arena hs)[h]? = some i') : ∃ i, arena[h]? = some i ∧ (i' = i ∨ i' = i.widened) := by
  induction hs generalizing arena with
  | nil => exact ⟨i', hi, .inl rfl⟩
  | cons x hs ih =>
    obtain ⟨i1, h1, hw⟩ := @ih (arena.modify x widened) hi
    rw [Array.getElem?_modify] at h1
    split at h1
    · obtain ⟨i, hi, rfl⟩ := Option.map_eq_some_iff.1 h1
      rw [widened_widened, or_self] at hw
      exact ⟨i, hi, .inr hw⟩
    · exact ⟨i1, h1, hw⟩

lemma widened_layOut {m : CodeMap} (hl : m.Laid) (hs : List Handle) :
    Widened m (layOut (widenAll m.arena hs) m.order) where
  laid := laid_layOut hl.nodup fun h hm => by rw [size_widenAll]; exact hl.bound h hm
  live := rfl
  instruction := fun _ _ hi => getElem?_widenAll hi

lemma isSome_target?_widenAll (arena : Array Instruction) (hs : List Handle) (h : Handle) :
    ((widenAll arena hs)[h]?.bind Instruction.target?).isSome = (arena[h]?.bind Instruction.target?).isSome := by
  have hkept : ∀ i : Instruction, i.widened.target?.isSome = i.target?.isSome := fun i => by
    have htarget : i.widened.opcode.hasTarget = i.opcode.hasTarget := by
      rw [Bool.eq_iff_iff, hasTarget_eq_true, hasTarget_eq_true, role_widened]
    rw [Instruction.target?, Instruction.target?, htarget]
    split <;> rfl
  induction hs generalizing arena with
  | nil => rfl
  | cons x hs ih =>
    refine (ih _).trans ?_
    rw [Array.getElem?_modify]
    split
    · cases arena[h]? with
      | none => rfl
      | some i => exact hkept i
    · rfl

/-- Widening works all addresses out again. -/
lemma Laid.reflow_widenAll {m : CodeMap} (hl : m.Laid) (hs : List Handle) :
    { m with arena := widenAll m.arena hs }.reflow 0 = layOut (widenAll m.arena hs) m.order := by
  have hordered : ({ m with arena := widenAll m.arena hs } : CodeMap).Ordered := ⟨?_, hl.nodup, ?_, fun x => ?_⟩
  · exact hordered.reflow_eq (List.nil_append _).symm (List.nil_append _).symm fun x _ => hl.position x
  · exact hl.positions.trans (size_widenAll _ _).symm
  · exact fun x hx => by rw [size_widenAll]; exact hl.bound x hx
  · exact (hl.targets x).trans (and_congr_right' (Bool.eq_iff_iff.1 (isSome_target?_widenAll m.arena hs x).symm))

lemma widen_widened {m : CodeMap} (hl : m.Laid) : Widened m m.widen.1 := by
  fun_induction widen m with
  | case1 m h => exact .refl hl
  | case2 m first rest h r ih =>
    have hw := widened_layOut hl (first :: rest)
    rw [← hl.reflow_widenAll] at hw
    exact hw.trans (ih hw.laid)

end CodeMap

end NeoScript
