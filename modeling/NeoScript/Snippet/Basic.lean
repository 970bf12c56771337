import NeoScript.Instruction
import NeoScript.ValueType

/-!
# Snippets

A `Snippet` is a fixed piece of code with structured control flow: a part that may be skipped, and a loop whose
test stands behind its body. Snippets are written down without handles or addresses; the jumps appear when a
snippet is emitted.
-/

namespace NeoScript

/-- Code with structured control flow. -/
inductive Snippet where
  | nil
  /-- An instruction without operand. -/
  | op (opcode : Opcode)
  /-- An instruction with an operand. -/
  | data (opcode : Opcode) (operand : Bytes)
  | seq (first second : Snippet)
  /-- A jump over `body`, taken if the test holds. -/
  | skip (test : JumpTest) (body : Snippet)
  /-- A jump to `test`, then `body`, `test`, and a jump back to `body` as long as `again` holds. -/
  | loop (body test : Snippet) (again : JumpTest)
  deriving DecidableEq, Repr

namespace Snippet

instance : Inhabited Snippet := ⟨nil⟩
instance : Append Snippet := ⟨seq⟩

/-- Instructions without operands, one after the other. -/
def ops : List Opcode → Snippet
  | [] => nil
  | o :: os => op o ++ ops os

/-- A snippet that is left out unless a condition holds. -/
def guarded (condition : Bool) (s : Snippet) : Snippet := if condition then s else nil

/-- Copies the item `depth` places below the top. -/
def pick (depth : Fin 17) : Snippet :=
  if depth = 0 then op .dup else if depth = 1 then op .dupBelow else ops [.push depth, .pick]

/-- Changes the representation of the top item. -/
def convert (t : ItemType) : Snippet := data .convert [t.byte]

end Snippet

end NeoScript
