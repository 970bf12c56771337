/-!
# Types of values

`ValueType` is what the compiler knows of a value on the operand stack. `any` is the type of which nothing is
known, and `join` the least type above two others: what is known after two branches meet. `ItemType` is how
the machine itself tells its stack items apart.
-/

namespace NeoScript

/-- The kind of a stack item, as the machine tells them apart. -/
inductive ItemType where
  | any
  | pointer
  | boolean
  | integer
  | byteString
  | buffer
  | array
  | struct
  | map
  | interopInterface
  deriving DecidableEq, Repr

namespace ItemType

/-- The byte that names the kind in an operand. -/
def byte : ItemType → UInt8
  | any => 0x00
  | pointer => 0x10
  | boolean => 0x20
  | integer => 0x21
  | byteString => 0x28
  | buffer => 0x30
  | array => 0x40
  | struct => 0x41
  | map => 0x48
  | interopInterface => 0x60

/-- The name of the kind. -/
def name : ItemType → String
  | any => "Any"
  | pointer => "Pointer"
  | boolean => "Boolean"
  | integer => "Integer"
  | byteString => "ByteString"
  | buffer => "Buffer"
  | array => "Array"
  | struct => "Struct"
  | map => "Map"
  | interopInterface => "InteropInterface"

/-- Every kind once. -/
def all : List ItemType :=
  [any, pointer, boolean, integer, byteString, buffer, array, struct, map, interopInterface]

/-- The kind named by a byte. -/
def ofByte? (b : UInt8) : Option ItemType := all.find? fun k => k.byte == b

/-- The kinds that the machine converts into each other. -/
def isScalar : ItemType → Bool
  | byteString | buffer | integer | boolean => true
  | _ => false

end ItemType

/-- What is known of a value. -/
inductive ValueType where
  | any
  | none
  | bool
  | int
  /-- An integer known to be at least zero. -/
  | nonNegInt
  | str
  | bytes
  /-- A byte string that can be changed in place. -/
  | byteArray
  | list (item : ValueType)
  | tuple (item : ValueType)
  | dict (key value : ValueType)
  /-- An iterator of the machine over items of a type. -/
  | iterator (item : ValueType)
  /-- An instance of the class of that name. -/
  | object (className : String)
  deriving DecidableEq, Repr

namespace ValueType

instance : Inhabited ValueType := ⟨any⟩

/-- How the machine represents values of a type. -/
def itemType : ValueType → ItemType
  | any | none => .any
  | bool => .boolean
  | int | nonNegInt => .integer
  | str | bytes => .byteString
  | byteArray => .buffer
  | list _ | tuple _ | object _ => .array
  | dict _ _ => .map
  | iterator _ => .interopInterface

/-- An integer type. -/
def isInt : ValueType → Bool
  | int | nonNegInt => true
  | _ => false

/-- A type of byte strings. -/
def isByteLike : ValueType → Bool
  | str | bytes | byteArray => true
  | _ => false

/-- A type of arrays indexed by position. -/
def isArrayLike : ValueType → Bool
  | list _ | tuple _ => true
  | _ => false

/-- A type indexed by position. -/
def isSequence (t : ValueType) : Bool := t.isArrayLike || t.isByteLike

/-- The type of what iteration over a value gives. -/
def element : ValueType → ValueType
  | list item | tuple item | iterator item => item
  | dict key _ => key
  | str => str
  | bytes | byteArray => nonNegInt
  | _ => any

/-- The type of what a subscript gives. -/
def subscript : ValueType → ValueType
  | dict _ value => value
  | t => t.element

/-- The least type above both. -/
def join (a b : ValueType) : ValueType :=
  if a = b then a
  else
    match a, b with
    | list x, list y => list (join x y)
    | _, _ => if a.isInt && b.isInt then int else any

/-- The least type above all of a list; nothing is known of the items of an empty list. -/
def joinAll : List ValueType → ValueType
  | [] => any
  | t :: ts => ts.foldl join t

/-- The least types above two stacks, place by place; stacks of different depth keep the first. -/
def joinStacks (a b : List ValueType) : List ValueType :=
  if a.length = b.length then List.zipWith join a b else a

/-- How a type is written. -/
def text : ValueType → String
  | any => "any"
  | none => "None"
  | bool => "bool"
  | int | nonNegInt => "int"
  | str => "str"
  | bytes => "bytes"
  | byteArray => "bytearray"
  | list item => "list[" ++ item.text ++ "]"
  | tuple item => "tuple[" ++ item.text ++ ", ...]"
  | dict key value => "dict[" ++ key.text ++ ", " ++ value.text ++ "]"
  | iterator item => "Iterator[" ++ item.text ++ "]"
  | object className => className

end ValueType

end NeoScript
