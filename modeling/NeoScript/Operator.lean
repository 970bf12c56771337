/-!
# Operators

The operators of the language and how they are written.
-/

namespace NeoScript

/-- An operator with one operand. -/
inductive UnaryOp where
  | neg
  | pos
  | not
  | invert
  deriving DecidableEq, Repr

namespace UnaryOp

/-- How an operator is written. -/
def text : UnaryOp → String
  | neg => "-"
  | pos => "+"
  | not => "not"
  | invert => "~"

/-- Every operator once. -/
def all : List UnaryOp := [neg, pos, not, invert]

/-- The operator that is written so. -/
def ofText? (s : String) : Option UnaryOp := all.find? fun o => o.text == s

end UnaryOp

/-- An operator with two operands. -/
inductive BinaryOp where
  | add
  | sub
  | mul
  | floorDiv
  | mod
  | pow
  | bitAnd
  | bitOr
  | bitXor
  | shiftLeft
  | shiftRight
  | eq
  | ne
  | lt
  | le
  | gt
  | ge
  | is
  | isNot
  | isIn
  | notIn
  | and
  | or
  deriving DecidableEq, Repr

namespace BinaryOp

/-- How an operator is written. -/
def text : BinaryOp → String
  | add => "+"
  | sub => "-"
  | mul => "*"
  | floorDiv => "//"
  | mod => "%"
  | pow => "**"
  | bitAnd => "&"
  | bitOr => "|"
  | bitXor => "^"
  | shiftLeft => "<<"
  | shiftRight => ">>"
  | eq => "=="
  | ne => "!="
  | lt => "<"
  | le => "<="
  | gt => ">"
  | ge => ">="
  | is => "is"
  | isNot => "is not"
  | isIn => "in"
  | notIn => "not in"
  | and => "and"
  | or => "or"

/-- Every operator once. -/
def all : List BinaryOp :=
  [add, sub, mul, floorDiv, mod, pow, bitAnd, bitOr, bitXor, shiftLeft, shiftRight, eq, ne, lt, le, gt, ge, is,
    isNot, isIn, notIn, and, or]

/-- The operator that is written so. -/
def ofText? (s : String) : Option BinaryOp := all.find? fun o => o.text == s

end BinaryOp

end NeoScript
