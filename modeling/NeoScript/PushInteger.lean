import NeoScript.CompileError
import NeoScript.Instruction

/-!
# Pushing an integer

The shortest instructions that push an integer: one byte from -1 to 16, two bytes down to -16, and otherwise
the narrowest fixed-width push that holds it.
-/

namespace NeoScript

-- Powers are those of the numbers, whatever other instances are in scope.
attribute [local instance (high)] instPowNat

/-- The narrowest fixed width that holds `v`, as the exponent of two of its bytes. -/
def intScale? (v : Int) : Option (Fin 6) :=
  (List.finRange 6).find? fun scale => decide (Bytes.signedWidth v ≤ 2 ^ scale.val)

/-- The instructions that push `v`, if some do. -/
def pushInteger? (v : Int) : Option (List Instruction) :=
  match Opcode.pushSmall? v with
  | some o => some [{ opcode := o }]
  | none =>
    match (if v < 0 then Opcode.pushSmall? (-v) else none) with
    | some o => some [{ opcode := o }, { opcode := .negate }]
    | none =>
      (intScale? v).map fun scale =>
        [{ opcode := .pushInt scale, operand := Bytes.ofInt (2 ^ scale.val) v }]

/-- The instructions that push `v`, or the refusal of a number with more than 32 bytes. -/
def pushInteger (v : Int) : Except CompileError (List Instruction) :=
  match pushInteger? v with
  | some instructions => .ok instructions
  | none => .error (.integerTooWide (Bytes.signedWidth v))

end NeoScript
