import NeoScript.Proofs.Generator.Linking
import NeoScript.Snippet.Arithmetic
import NeoScript.Snippet.Subscript

/-!
# Proper snippets

Every snippet that the compiler uses is made of plain opcodes that accept their operands and end no protected block, and
no loop in one has an empty body.
-/

namespace NeoScript.Snippet

/-- The number of instructions of a snippet. -/
def length : Snippet → Nat
  | nil => 0
  | op _ | data _ _ => 1
  | seq first second => first.length + second.length
  | skip _ body => body.length + 1
  | loop body test _ => body.length + test.length + 2

/-- Every opcode of the snippet is plain, accepts its operand and does not end a finalizer, and loops have a body. -/
def proper : Snippet → Bool
  | nil => true
  | op o => o.role == .plain && Instruction.accepts o [] && o != .finallyLeave
  | data o operand => o.role == .plain && Instruction.accepts o operand && o != .finallyLeave
  | seq first second => first.proper && second.proper
  | skip _ body => body.proper
  | loop body test _ => body.proper && test.proper && decide (0 < body.length)

@[simp] lemma proper_append (a b : Snippet) : (a ++ b).proper = (a.proper && b.proper) := rfl

@[simp] lemma proper_guarded {s : Snippet} (c : Bool) (hs : s.proper = true) : (guarded c s).proper = true := by
  cases c
  · rfl
  · exact hs

@[simp] lemma proper_pick (depth : Fin 17) : (pick depth).proper = true := by
  unfold pick
  split_ifs <;> rfl

/-! ### Indexes and slices -/

@[simp] lemma proper_fixIndex (depth : Fin 17) : (fixIndex depth).proper = true := by
  have h : (pick depth ++ ops [.size, .add]).proper = true := by
    rw [proper_append, proper_pick]
    rfl
  exact h

@[simp] lemma proper_fixBound (bound : ValueType) (depth : Fin 17) : (fixBound bound depth).proper = true := by
  simp [fixBound]

@[simp] lemma proper_clampFixed (bound : ValueType) (depth : Fin 17) : (clampFixed bound depth).proper = true := by
  have h : (ops [.push 0, .max]).proper = true := rfl
  have h' : (ops [.size, .min]).proper = true := rfl
  simp [clampFixed, h, h']

@[simp] lemma proper_clamp (bound : ValueType) (depth : Fin 17) : (clamp bound depth).proper = true := by
  simp [clamp]

@[simp] lemma proper_byteResult (collection : ValueType) : (byteResult collection).proper = true :=
  proper_guarded _ rfl

@[simp] lemma proper_sliceBounded (collection : ValueType) : (sliceBounded collection).proper = true := by
  unfold sliceBounded
  split_ifs
  · rw [proper_append, proper_byteResult]
    rfl
  · rfl

lemma proper_slice (collection start stop : ValueType) : (slice collection start stop).proper = true := by
  have h : (op .swap).proper = true := rfl
  simp [slice, h]

lemma proper_sliceBeginning (collection stop : ValueType) : (sliceBeginning collection stop).proper = true := by
  unfold sliceBeginning
  rw [proper_append, proper_clamp]
  split_ifs
  · rw [proper_append, proper_byteResult]
    rfl
  · rw [proper_append, proper_sliceBounded]
    rfl

lemma proper_sliceEnding (collection start : ValueType) : (sliceEnding collection start).proper = true := by
  unfold sliceEnding
  rw [proper_append, proper_clamp]
  split_ifs
  · rw [proper_append, proper_byteResult]
    rfl
  · rw [proper_append, proper_sliceBounded]
    rfl

@[simp] lemma proper_copy (collection : ValueType) : (copy collection).proper = true := by
  unfold copy
  split <;> rfl

/-! ### Strides -/

@[simp] lemma proper_strideOf (collection : ValueType) : (strideOf collection).proper = true := by
  unfold strideOf
  split_ifs
  · unfold strideBytes
    rw [proper_append, proper_byteResult]
    split_ifs <;> rfl
  · rfl

lemma proper_stride (collection : ValueType) : (stride collection).proper = true := by
  have h : (op .swap).proper = true := rfl
  simp [stride, h]

lemma proper_sliceStride (collection start stop step : ValueType) :
    (sliceStride collection start stop step).proper = true := by
  have h : (op .swap).proper = true := rfl
  have h' : (ops [.reverse4, .reverse3]).proper = true := rfl
  have hdown (c : Bool) :
      (guarded c (ops [.push 3, .pick, .push 0] ++ skip .ge (ops [.inc, .swap, .inc]))).proper = true :=
    proper_guarded c rfl
  simp [sliceStride, h, h', hdown]

end NeoScript.Snippet
