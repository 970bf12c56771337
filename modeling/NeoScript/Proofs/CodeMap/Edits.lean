import NeoScript.Proofs.CodeMap.Widening
import NeoScript.Proofs.Generator.Relink

/-!
# Edits of a code map

A code map is changed by a few operations: instructions are appended, given targets, removed, moved and widened.
An `Edit` is one of them as data, so that every code map is the result of a list of edits. Each edit keeps the map
laid out, whatever addresses it is given: a removal leaves a sublist of the live handles, a move a permutation.
-/

namespace NeoScript.CodeMap

open List Array Instruction

/-- An operation that changes a code map. -/
inductive Edit where
  /-- Appends an instruction with an operand. -/
  | insert (o : Opcode) (operand : Bytes)
  /-- Appends a control transfer. -/
  | insertTransfer (o : Opcode) (target : Target)
  | setTarget (h : Handle) (target : Target)
  | removeSpan (start stop : Nat)
  | truncate (address : Nat)
  | relocate (start stop : Nat)
  | widen
  | reset

/-- The map after an edit. An operand that the opcode does not accept, and a target for an instruction that has
none, are misuses, which change nothing. -/
def edit (m : CodeMap) : Edit → CodeMap
  | .insert o operand => ((Instruction.ofOperand? o operand).map m.insert).getD m
  | .insertTransfer o target => ((Instruction.ofTarget? o target).map m.insert).getD m
  | .setTarget h target => if (m.target? h).isSome then m.setTarget h target else m
  | .removeSpan start stop => (m.removeSpan start stop).1
  | .truncate address => (m.truncate address).1
  | .relocate start stop => (m.relocate start stop).1
  | .widen => m.widen.1
  | .reset => {}

/-- The map that a list of edits makes of the empty one. -/
def edited (edits : List Edit) : CodeMap := edits.foldl edit {}

/-- What each edit keeps, every edited map has. -/
lemma edited_induction {P : CodeMap → Prop} (hempty : P {}) (hedit : ∀ m e, P m → P (m.edit e))
    (edits : List Edit) : P (edited edits) := by
  have hrun : ∀ (es : List Edit) m, P m → P (es.foldl edit m) := by
    intro es
    induction es with
    | nil => exact fun _ h => h
    | cons e es ih => exact fun m h => ih _ (hedit m e h)
  exact hrun edits {} hempty

/-! ### Laid out after every edit -/

variable {m : CodeMap}

lemma Laid.truncate (hl : m.Laid) (address : Nat) : (m.truncate address).1.Laid := by
  rw [CodeMap.truncate]
  split_ifs
  · exact hl
  · exact (hl.removeSpan _ _).1

/-- Every edit keeps the map laid out. -/
lemma Laid.edit (hl : m.Laid) (e : Edit) : (m.edit e).Laid := by
  cases e with
  | insert o operand =>
    simp only [CodeMap.edit]
    cases ofOperand? o operand with
    | none => exact hl
    | some i => exact hl.insert i
  | insertTransfer o target =>
    simp only [CodeMap.edit]
    cases ofTarget? o target with
    | none => exact hl
    | some i => exact hl.insert i
  | setTarget h target =>
    simp only [CodeMap.edit]
    split_ifs
    · exact hl.setTarget h target
    · exact hl
  | removeSpan start stop => exact (hl.removeSpan start stop).1
  | truncate address => exact hl.truncate address
  | relocate start stop => exact (hl.relocate start stop).1
  | widen => exact (widen_widened hl).laid
  | reset => exact laid_empty

lemma laid_edited (edits : List Edit) : (edited edits).Laid :=
  edited_induction laid_empty (fun _ e hl => hl.edit e) edits

/-! ### The caches -/

lemma sorted_linked (m : CodeMap) : m.linked.Pairwise (· < ·) :=
  Std.ExtTreeSet.ordered_toList.imp Nat.compare_eq_lt.1

/-- **Every code map is laid out.** Whatever edits made it, its live handles were issued and stand once each; the
start of each place is the number of bytes of the instructions before it, and the size is that of all; the place of
an issued handle is where it stands, and a removed one has none; and the set that is kept of handles with a target, which
is listed in order, holds the live ones whose opcode has a target. -/
theorem edited_caches (edits : List Edit) :
    let m := edited edits
    m.live.Nodup ∧ (∀ h ∈ m.live, h < m.nextHandle) ∧
    m.starts.size = m.order.size ∧
    (∀ k < m.order.size, m.starts[k]? = some (((m.live.take k).map (sizeOf m.arena)).sum)) ∧
    m.size = (m.live.map (sizeOf m.arena)).sum ∧
    m.positions.size = m.nextHandle ∧
    (∀ h < m.nextHandle, m.positions[h]? = some (m.live.idxOf? h)) ∧
    m.linked.Pairwise (· < ·) ∧ (∀ h, h ∈ m.linked ↔ h ∈ m.withTarget) ∧
    ∀ h, h ∈ m.withTarget ↔ h ∈ m.live ∧ ∃ i, m.instruction? h = some i ∧ i.opcode.hasTarget = true := by
  intro m
  have hl : m.Laid := laid_edited edits
  have hlength : m.live.length = m.order.size := rfl
  have hmem : ∀ h, h ∈ m.linked ↔ h ∈ m.withTarget := fun h => Std.ExtTreeSet.mem_toList
  refine ⟨hl.nodup, hl.bound, ?_, ?_, hl.size, hl.positions, fun h hlt => hl.getElem?_positions hlt,
    sorted_linked m, hmem, fun h => ?_⟩
  · rw [hl.starts, List.size_toArray, length_startsFrom, hlength]
  · intro k hk
    rw [hl.starts, List.getElem?_toArray, getElem?_startsFrom, if_pos (hlength ▸ hk), Nat.zero_add]
    rfl
  · simp only [← hmem, Generator.mem_linked hl, Opcode.hasTarget_eq_true]

/-- A jump too far for a short offset over a call that is removed, and the last instruction moved to the front. -/
def stretchedJump : List Edit :=
  [.insertTransfer (.jump .always false) (.code 4), .insertTransfer (.call false) .unresolved,
    .insert (.pushData 0) (List.replicate 130 0), .setTarget 1 (.code 2), .insert .nop [], .insert .ret [],
    .removeSpan 2 3, .widen, .relocate 0 137]

theorem edited_caches_stretched :
    (edited stretchedJump).live = [4, 0, 2, 3] ∧ (edited stretchedJump).starts = #[0, 1, 6, 138] ∧
      (edited stretchedJump).size = 139 ∧ (edited stretchedJump).positions[1]? = some none ∧
      (edited stretchedJump).linked = [0] ∧ 0 ∈ (edited stretchedJump).withTarget := by
  obtain ⟨-, -, -, -, -, -, hpositions, -, hmem, -⟩ := edited_caches stretchedJump
  have hlinked : (edited stretchedJump).linked = [0] := by decide +kernel
  refine ⟨by decide +kernel, by decide +kernel, by decide +kernel, ?_, hlinked, (hmem 0).1 (hlinked ▸ List.mem_cons_self)⟩
  rw [hpositions 1 (by decide +kernel)]
  decide +kernel

end NeoScript.CodeMap
