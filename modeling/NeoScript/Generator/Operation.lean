import NeoScript.Generator.Binding
import NeoScript.Operator
import NeoScript.Snippet.Arithmetic

/-!
# Operators and type tests

The operands are on the stack, the right one on top. Division rounds down: it is one instruction when neither
operand can be negative, and a snippet otherwise. A comparison with the constant that was just pushed as `None`
becomes a test for null.
-/

namespace NeoScript.Generator

/-- Whether a value of this type can be used as a number; of an unknown type it is assumed. -/
def numeric (t : ValueType) : Bool := t.isInt || t == .any || t == .bool

/-- Applies an operator to the top item. -/
def unary (o : UnaryOp) : Emission Unit := do
  let operand := (← get).stack.peek 0
  match o, numeric operand with
  | .not, _ => modify fun g => g.op .not 1 (some .bool)
  | .pos, true => pure ()
  | .neg, true => modify fun g => g.op .negate 1 (some .int)
  | .invert, true => modify fun g => g.op .invert 1 (some .int)
  | _, false => refuse (.unsupported o.text operand)

/-- Replaces the two top items by a result. -/
def binaryOp (g : Generator) (o : Opcode) (result : ValueType) : Generator := g.op o 2 (some result)

/-- Replaces the two top items by the truth value of a comparison. -/
def compare (g : Generator) (o : Opcode) : Generator := g.binaryOp o .bool

/-- Compares two items for identity. -/
def identity (g : Generator) (negated : Bool) : Generator :=
  match g.detachable?.filter fun h => (g.code.instruction? h).any fun i => i.opcode == .pushNull with
  | some null =>
    let g := ((g.removeInstruction null).popTypes 1).op .isNull 1 (some .bool)
    if negated then g.op .not 1 (some .bool) else g
  | none => g.compare (if negated then .notEqual else .equal)

/-- Tests whether a mapping has a key. -/
def membership (g : Generator) (negated : Bool) : Generator :=
  let g := g.swap.op .hasKey 2 (some .bool)
  if negated then g.op .not 1 (some .bool) else g

/-- The quotient, rounded down. -/
def floorDiv (g : Generator) (nonNegative : Bool) : Generator :=
  if nonNegative then g.binaryOp .div .nonNegInt else (g.emitSnippet .floorDiv).settle 2 .int

/-- The remainder, with the sign of the divisor. -/
def floorMod (g : Generator) (nonNegative : Bool) : Generator :=
  if nonNegative then g.binaryOp .mod .nonNegInt else (g.emitSnippet .floorMod).settle 2 .int

/-- An operation on numbers, for the operators that need them. The flags say whether neither operand can be
negative and whether both are truth values. -/
def arithmetic? (o : BinaryOp) (nonNegative bools : Bool) : Option (Generator → Generator) :=
  let sign : ValueType := if nonNegative then .nonNegInt else .int
  let bits : ValueType := if bools then .bool else .int
  match o with
  | .add => some fun g => g.binaryOp .add sign
  | .mul => some fun g => g.binaryOp .mul sign
  | .pow => some fun g => g.binaryOp .pow sign
  | .sub => some fun g => g.binaryOp .sub .int
  | .shiftLeft => some fun g => g.binaryOp .shl .int
  | .shiftRight => some fun g => g.binaryOp .shr .int
  | .bitAnd => some fun g => g.binaryOp .bitAnd bits
  | .bitOr => some fun g => g.binaryOp .bitOr bits
  | .bitXor => some fun g => g.binaryOp .bitXor bits
  | .floorDiv => some fun g => g.floorDiv nonNegative
  | .mod => some fun g => g.floorMod nonNegative
  | .lt => some fun g => g.compare .lt
  | .le => some fun g => g.compare .le
  | .gt => some fun g => g.compare .gt
  | .ge => some fun g => g.compare .ge
  | _ => none

/-- What an operator does with a left and a right operand, if it accepts them. -/
def binary? (o : BinaryOp) (left right : ValueType) : Option (Generator → Generator) :=
  let numbers := numeric left && numeric right
  match o with
  | .eq => some fun g => g.compare (if numbers then .numEqual else .equal)
  | .ne => some fun g => g.compare (if numbers then .numNotEqual else .notEqual)
  | .is => some fun g => g.identity false
  | .isNot => some fun g => g.identity true
  | .and => some fun g => g.compare .boolAnd
  | .or => some fun g => g.compare .boolOr
  | .isIn =>
    match right with
    | .dict _ _ => some fun g => g.membership false
    | _ => none
  | .notIn =>
    match right with
    | .dict _ _ => some fun g => g.membership true
    | _ => none
  | _ =>
    if numbers then
      arithmetic? o (left == .nonNegInt && right == .nonNegInt) (left == .bool && right == .bool)
    else if o = .add && left.isByteLike && right.isByteLike then
      some fun g => (g.binaryOp .cat .byteArray).cast left
    else none

/-- Applies an operator to the two top items. -/
def binary (o : BinaryOp) : Emission Unit := do
  let g ← get
  let right := g.stack.peek 0
  let left := g.stack.peek 1
  match binary? o left right with
  | some operation => modify operation
  | none => refuse (.unsupported o.text (if numeric left then right else left))

/-- Tests the type of the top item. -/
def isInstance (t : ValueType) : Emission Unit :=
  match t with
  | .none => modify fun g => g.op .isNull 1 (some .bool)
  | .any => refuse (.unsupported "isinstance" t)
  | _ => modify fun g => g.opData .isType [t.itemType.byte] 1 (some .bool)

end NeoScript.Generator
