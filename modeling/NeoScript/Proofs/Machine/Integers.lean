import NeoScript.Proofs.Machine.Snippet

/-!
# Pushing integers

An integer that fits into 32 bytes has instructions that push it, and the machine that runs them gets the integer.
-/

namespace NeoScript

open Generator Machine Option List Bytes Opcode

namespace Snippet

/-- Instructions in a row. -/
def row : List Instruction → Snippet
  | [] => .nil
  | i :: is => .data i.opcode i.operand ++ row is

lemma yields_of_pushing {v : Int} {is : List Instruction} (h : Pushing v is) (S : List Value) (heap : Heap) :
    Yields (row is) ⟨S, heap⟩ (some ⟨.int v :: S, heap⟩) := by
  cases h with
  | minusOne => exact .seq (.data rfl) .nil
  | small k => exact .seq (.data rfl) .nil
  | negated k =>
    have hpush : Yields (.data (.push k) []) ⟨S, heap⟩ (some ⟨.int k.val :: S, heap⟩) := .data rfl
    exact .seq hpush (.seq (.data rfl) .nil)
  | wide hb => exact .seq (.data rfl) .nil

end Snippet

namespace Generator

variable {g : Generator}

lemma target_pushInteger? {v : Int} {is : List Instruction} (hp : pushInteger? v = some is) :
    ∀ i ∈ is, i.target = .unresolved := by
  cases pushing_pushInteger? hp <;> simp

lemma Spells.row {is : List Instruction} (hl : Legible g)
    (hi : ∀ i ∈ is, i.opcode.role = .plain ∧ i.target = .unresolved) : Spells (.row is) g (g.appendAll is) := by
  induction is generalizing g with
  | nil => exact nil hl
  | cons i is ih =>
    obtain ⟨hrole, htarget⟩ := hi i List.mem_cons_self
    have hfirst : Spells (.data i.opcode i.operand) g (g.append i) := by
      have h : Spells (.data i.opcode i.operand) g (g.append ⟨i.opcode, i.operand, .unresolved⟩) := instruction hl hrole
      rwa [← htarget] at h
    exact hfirst.seq (ih hfirst.legible fun j hj => hi j (mem_cons_of_mem _ hj))

lemma Spells.pushInteger {v : Int} {is : List Instruction} (hl : Legible g) (hp : pushInteger? v = some is) :
    Spells (.row is) g (g.appendAll is) :=
  row hl fun i hi => ⟨(proper_pushInteger hp i hi).1, target_pushInteger? hp i hi⟩

end Generator

/-- **Integers are pushed in the shortest way.** There is code for an integer just if it fits into 32 bytes. The machine
that runs the code gets the integer, and so it does with every other code that pushes it, but none is shorter. The refusal
of another integer tells the least number of bytes that hold it. -/
theorem pushInteger_shortest (v : Int) :
    ((∃ is, pushInteger v = .ok is) ↔ -2 ^ 255 ≤ v ∧ v < 2 ^ 255) ∧
      (∀ js, Pushing v js → ∀ S heap, Snippet.Yields (.row js) ⟨S, heap⟩ (some ⟨.int v :: S, heap⟩)) ∧
      (∀ is, pushInteger v = .ok is → Pushing v is ∧ ∀ js, Pushing v js → encodedLength is ≤ encodedLength js) ∧
      ∀ cause, pushInteger v = .error cause →
        ∃ width, cause = .integerTooWide width ∧ IsLeast {k | ∃ bs : Bytes, bs.length = k ∧ toInt bs = v} width := by
  have hnone : pushInteger? v = none ↔ ¬ Literal.InRange v := pushInteger?_eq_none
  refine ⟨?_, fun js hj => Snippet.yields_of_pushing hj, fun is h => ?_, fun cause h => ?_⟩
  · change _ ↔ Literal.InRange v
    unfold pushInteger
    cases hv : pushInteger? v with
    | none => exact iff_of_false nofun (hnone.1 hv)
    | some is => exact iff_of_true ⟨is, rfl⟩ (by_contra fun hr => by rw [hnone.2 hr] at hv; cases hv)
  · unfold pushInteger at h
    split at h
    · next hv =>
      cases h
      exact ⟨pushing_pushInteger? hv, fun js hj => pushInteger?_shortest hv hj⟩
    · cases h
  · unfold pushInteger at h
    split at h
    · cases h
    · next hv =>
      cases h
      refine ⟨_, rfl, signedWidth_isLeast ?_⟩
      rintro rfl
      exact hnone.1 hv (by decide)

end NeoScript
