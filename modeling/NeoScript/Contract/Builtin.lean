import NeoScript.CompileError
import NeoScript.Instruction

/-!
# Builtins

A builtin is a function whose body is put in place of its call: a straight sequence of instructions chosen by
the types of the arguments. The types come in the order of the arguments; a builtin that looks at an argument
which is not there is misused.
-/

namespace NeoScript

/-- Which argument is an index, and which one is the collection that it indexes. -/
structure IndexArgument where
  index : Nat
  collection : Nat
  deriving DecidableEq, Repr

/-- A function that is compiled in place. -/
structure Builtin where
  name : String
  argCount : Nat
  /-- An index that counts from the end when it is negative. -/
  indexArgument : Option IndexArgument := none
  /-- The type of the result; `none` when nothing is left. -/
  returns : List ValueType → Except Fault ValueType
  /-- The body. -/
  body : List ValueType → Except Fault (List Instruction)

namespace Builtin

/-- The refusal of a builtin to work on a type. -/
def unsupported {α : Type} (name : String) (t : ValueType) : Except Fault α :=
  .error (.refused (.unsupported name t))

/-- Instructions without operands. -/
def plain (os : List Opcode) : List Instruction := os.map fun o => { opcode := o }

/-- The number of items of a collection. -/
def len : Builtin where
  name := "len"
  argCount := 1
  returns _ := .ok .nonNegInt
  body args :=
    match args with
    | [] => .error .misuse
    | t :: _ =>
      match t with
      | .any | .dict _ _ => .ok (plain [.size])
      | _ => if t.isSequence then .ok (plain [.size]) else unsupported "len" t

/-- Whether items can be added to and taken from a value of a type. -/
def isGrowable : ValueType → Bool
  | .list _ | .any => true
  | _ => false

/-- Adds an item at the end of a list. -/
def append : Builtin where
  name := "append"
  argCount := 2
  returns _ := .ok .none
  body args :=
    match args with
    | [] => .error .misuse
    | t :: _ => if isGrowable t then .ok (plain [.append]) else unsupported "append" t

/-- The type of an item of the first argument. -/
def firstElement : List ValueType → Except Fault ValueType
  | [] => .error .misuse
  | t :: _ => .ok t.element

/-- Takes the last item of a list. -/
def pop : Builtin where
  name := "pop"
  argCount := 1
  returns := firstElement
  body args :=
    match args with
    | [] => .error .misuse
    | t :: _ => if isGrowable t then .ok (plain [.popItem]) else unsupported "pop" t

/-- Takes the item of a list at a position. -/
def popIndex : Builtin where
  name := "pop"
  argCount := 2
  indexArgument := some ⟨1, 0⟩
  returns := firstElement
  body args :=
    match args with
    | [] => .error .misuse
    | t :: _ =>
      if isGrowable t then .ok (plain [.dupBelow, .dupBelow, .pickItem, .reverse3, .swap, .remove])
      else unsupported "pop" t

/-- A function of integers that is one opcode. -/
def ofIntegers (name : String) (o : Opcode) (argCount : Nat) (returns : List ValueType → ValueType) : Builtin where
  name
  argCount
  returns args := .ok (returns args)
  body args :=
    match args.find? fun t => !t.isInt && t != .any with
    | some t => unsupported name t
    | none => .ok (plain [o])

/-- The sign known of a result that is one of the arguments, or is known anyway. -/
def signed (isNonNeg : Bool) : ValueType := if isNonNeg then .nonNegInt else .int

/-- The distance from zero. -/
def abs : Builtin := ofIntegers "abs" .abs 1 fun _ => .nonNegInt

/-- The smaller of two numbers. -/
def min : Builtin := ofIntegers "min" .min 2 fun args => signed (args.all fun t => t == .nonNegInt)

/-- The larger of two numbers. -/
def max : Builtin :=
  ofIntegers "max" .max 2 fun args => signed (args.isEmpty || args.any fun t => t == .nonNegInt)

/-- The builtin of a name. -/
def ofName? : String → Option Builtin
  | "len" => some len
  | "append" => some append
  | "pop" => some pop
  | "pop_index" => some popIndex
  | "abs" => some abs
  | "min" => some min
  | "max" => some max
  | _ => none

/-- A builtin that leaves a value of a fixed type and whose body does not depend on the arguments. Its body is
a misuse if an opcode does not accept its operand. -/
def fixed (name : String) (argCount : Nat) (indexArgument : Option IndexArgument) (returns : ValueType)
    (body : List (Opcode × Bytes)) : Builtin where
  name
  argCount
  indexArgument
  returns _ := .ok returns
  body _ :=
    match body.mapM fun e => Instruction.ofOperand? e.1 e.2 with
    | some instructions => .ok instructions
    | none => .error .misuse

end Builtin

end NeoScript
