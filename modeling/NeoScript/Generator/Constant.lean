import NeoScript.Generator.Emit

/-!
# Constants and casts

A sequence is pushed from its last item to its first and then packed. A mapping is built up pair by pair in the
order in which it is written, so of two pairs with the same key the later one counts.
-/

namespace NeoScript.Generator

/-- Gives the top item another type. The machine converts it only if both types are held as scalars and the
representations differ. -/
def cast (g : Generator) (t : ValueType) : Generator :=
  let held := (g.stack.peek 0).itemType
  let wanted := t.itemType
  let g := if held ≠ wanted ∧ held.isScalar ∧ wanted.isScalar then g.emitData .convert [wanted.byte] else g
  g.settle 1 t

/-- Pushes an integer. -/
def integer (v : Int) : Emission Unit := do
  let instructions ← Emission.ofExcept (pushInteger v)
  modify fun g => (g.appendAll instructions).pushType (Literal.intType v)

mutual

/-- Pushes a constant. -/
def literal : Literal → Emission Unit
  | .none => modify fun g => g.op .pushNull 0 (some .none)
  | .bool value => modify fun g => g.op (.pushBool value) 0 (some .bool)
  | .int value => integer value
  | .str value => do
    pushData value.toUTF8.toList
    modify fun g => g.cast .str
  | .bytes value => do
    pushData value
    modify fun g => g.cast .bytes
  | .sequence [] => modify fun g => g.op .newArray0 0 (some (Literal.sequence []).valueType)
  | .sequence (item :: items) => do
    literalItems items
    literal item
    let count := items.length + 1
    modify fun g =>
      (g.pushIndex count).op .pack (count + 1) (some (Literal.sequence (item :: items)).valueType)
  | .mapping pairs => do
    modify fun g => g.op .newMap 0 (some (Literal.mapping pairs).valueType)
    literalPairs pairs

/-- Pushes constants from the last to the first. -/
def literalItems : List Literal → Emission Unit
  | [] => pure ()
  | item :: items => do
    literalItems items
    literal item

/-- Adds pairs to the mapping on top. -/
def literalPairs : List (Literal × Literal) → Emission Unit
  | [] => pure ()
  | (key, value) :: pairs => do
    modify dup
    literal key
    literal value
    modify fun g => g.op .setItem 3 none
    literalPairs pairs

end

end NeoScript.Generator
