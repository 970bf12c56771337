/-!
# Opcodes

The instruction set of the virtual machine. Opcodes that differ only in a number, a slot or the reach
of a jump are one constructor with a parameter, so a fact about a family is stated once.

* `Opcode.operand` says how the bytes after the opcode are laid out.
* `Opcode.wide?` and `Opcode.narrow?` relate the two reaches of a control transfer.
* `Opcode.endsFlow` says after which opcodes execution never reaches the next instruction.
-/

namespace NeoScript

-- Powers are those of the numbers, and zero is read alike, whatever other instances are in scope.
attribute [local instance (high)] instPowNat Zero.ofOfNat0

-- The bounds of the parameters of opcodes.
instance (priority := 2000) neZero_three : NeZero 3 := ⟨by decide⟩

instance (priority := 2000) neZero_seven : NeZero 7 := ⟨by decide⟩

instance (priority := 2000) neZero_seventeen : NeZero 17 := ⟨by decide⟩

/-- What a jump tests before it is taken. -/
inductive JumpTest where
  | always
  | ifTrue
  | ifFalse
  | eq
  | ne
  | gt
  | ge
  | lt
  | le
  deriving DecidableEq, Repr

/-- The three families of variable slots. -/
inductive SlotKind where
  /-- Fields shared by all methods of a script. -/
  | static
  /-- Variables of one activation. -/
  | frame
  /-- Arguments of one activation. -/
  | argument
  deriving DecidableEq, Repr

/-- An instruction of the virtual machine, without its operand. -/
inductive Opcode where
  /-- Pushes a signed number held in `2 ^ scale` operand bytes. -/
  | pushInt (scale : Fin 6)
  | pushBool (value : Bool)
  | pushAddress
  | pushNull
  /-- Pushes a byte string whose length is held in `2 ^ scale` bytes. -/
  | pushData (scale : Fin 3)
  | pushMinusOne
  /-- Pushes a number from 0 to 16. -/
  | push (value : Fin 17)
  | nop
  | jump (test : JumpTest) (far : Bool)
  | call (far : Bool)
  | callPointer
  | callToken
  | abort
  | assert
  | throw
  | tryEnter (far : Bool)
  | tryLeave (far : Bool)
  | finallyLeave
  | ret
  | syscall
  | depth
  | drop
  | nip
  | dropAt
  | clear
  | dup
  | dupBelow
  | pick
  | tuck
  | swap
  | rot
  | roll
  | reverse3
  | reverse4
  | reverseN
  | initStatic
  | initSlot
  /-- Loads a slot below 7, or with `none` the slot named by the operand. -/
  | load (kind : SlotKind) (slot : Option (Fin 7))
  /-- Stores into a slot below 7, or with `none` into the slot named by the operand. -/
  | store (kind : SlotKind) (slot : Option (Fin 7))
  | newBuffer
  | memCopy
  | cat
  | subStr
  | left
  | right
  | invert
  | bitAnd
  | bitOr
  | bitXor
  | equal
  | notEqual
  | sign
  | abs
  | negate
  | inc
  | dec
  | add
  | sub
  | mul
  | div
  | mod
  | pow
  | sqrt
  | modMul
  | modPow
  | shl
  | shr
  | not
  | boolAnd
  | boolOr
  | nonZero
  | numEqual
  | numNotEqual
  | lt
  | le
  | gt
  | ge
  | min
  | max
  | within
  | packMap
  | packStruct
  | pack
  | unpack
  | newArray0
  | newArray
  | newArrayOf
  | newStruct0
  | newStruct
  | newMap
  | size
  | hasKey
  | keys
  | values
  | pickItem
  | append
  | setItem
  | reverseItems
  | remove
  | clearItems
  | popItem
  | isNull
  | isType
  | convert
  | abortMsg
  | assertMsg
  deriving DecidableEq, Repr

/-- How the operand of an instruction is laid out. -/
inductive OperandLayout where
  /-- Exactly `size` bytes. -/
  | fixed (size : Nat)
  /-- A length of `size` bytes, then that many bytes. -/
  | sized (size : Nat)
  /-- One signed offset of `width` bytes. -/
  | offset (width : Nat)
  /-- Two signed offsets of `width` bytes each. -/
  | handlers (width : Nat)
  deriving DecidableEq, Repr

namespace Opcode

/-- The width of an offset of the given reach. -/
def offsetWidth (far : Bool) : Nat := if far then 4 else 1

/-- The layout of the bytes that follow the opcode. -/
def operand : Opcode → OperandLayout
  | pushInt scale => .fixed (2 ^ scale.val)
  | pushData scale => .sized (2 ^ scale.val)
  | pushAddress | syscall => .fixed 4
  | jump _ far | call far | tryLeave far => .offset (offsetWidth far)
  | tryEnter far => .handlers (offsetWidth far)
  | callToken | initSlot => .fixed 2
  | initStatic | load _ none | store _ none | newArrayOf | isType | convert => .fixed 1
  | _ => .fixed 0

/-- The number of operand bytes of fixed length; none for a sized operand. -/
def operandSize (o : Opcode) : Nat :=
  match o.operand with
  | .fixed n => n
  | .sized _ => 0
  | .offset width => width
  | .handlers width => 2 * width

/-- The number of bytes that hold the length of a sized operand. -/
def lengthBytes (o : Opcode) : Nat :=
  match o.operand with
  | .sized n => n
  | _ => 0

/-- The longest payload of a sized operand. -/
def maxPayload (o : Opcode) : Nat := 256 ^ o.lengthBytes - 1

/-- Whether the operand is an offset to other instructions. -/
def hasTarget (o : Opcode) : Bool :=
  match o.operand with
  | .offset _ | .handlers _ => true
  | _ => false

/-- The bytes taken by the opcode, the length of a sized operand and the operand itself, when a sized
operand has `payload` bytes. -/
def encodedSize (o : Opcode) (payload : Nat) : Nat :=
  match o.operand with
  | .sized n => 1 + n + payload
  | _ => 1 + o.operandSize

/-- The encoded size as a 64-bit word. There is none if the payload is so long that the size does not fit. -/
def encodedSize? (o : Opcode) (payload : Nat) : Option Nat :=
  if o.encodedSize payload < 2 ^ (64 : Nat) then some (o.encodedSize payload) else none

/-! ### Reach of control transfers -/

/-- The sibling with four-byte offsets of an opcode with one-byte offsets. -/
def wide? : Opcode → Option Opcode
  | jump test false => some (jump test true)
  | call false => some (call true)
  | tryEnter false => some (tryEnter true)
  | tryLeave false => some (tryLeave true)
  | _ => none

/-- The sibling with one-byte offsets of an opcode with four-byte offsets. -/
def narrow? : Opcode → Option Opcode
  | jump test true => some (jump test false)
  | call true => some (call false)
  | tryEnter true => some (tryEnter false)
  | tryLeave true => some (tryLeave false)
  | _ => none

/-- Whether the offsets of this opcode have four bytes. -/
def isWide (o : Opcode) : Bool := o.hasTarget && o.wide?.isNone

/-! ### Control flow -/

/-- The number of items that a jump takes from the stack to decide. -/
def testedItems : Opcode → Nat
  | jump .always _ => 0
  | jump .ifTrue _ | jump .ifFalse _ => 1
  | jump _ _ => 2
  | _ => 0

/-- A jump that is always taken. -/
def isUnconditionalJump : Opcode → Bool
  | jump .always _ => true
  | _ => false

/-- A jump that may fall through. -/
def isConditionalJump (o : Opcode) : Bool := o.testedItems != 0

/-- A call into the same script. -/
def isCall : Opcode → Bool
  | call _ => true
  | _ => false

/-- Whether execution never continues with the next instruction. -/
def endsFlow : Opcode → Bool
  | jump .always _ | ret | throw | abort | abortMsg | tryLeave _ | finallyLeave => true
  | _ => false

/-! ### Constants -/

/-- The number pushed by a one-byte opcode. -/
def smallValue? : Opcode → Option Int
  | pushMinusOne => some (-1)
  | push value => some value.val
  | _ => none

/-- The one-byte opcode that pushes `v`, for `v` from -1 to 16. -/
def pushSmall? (v : Int) : Option Opcode :=
  if v = -1 then some pushMinusOne
  else if h : 0 ≤ v ∧ v < 17 then some (push ⟨v.toNat, by omega⟩)
  else none

/-- The opcode with the shortest length field for a payload of `length` bytes. -/
def pushDataFor (length : Nat) : Opcode :=
  if length < 256 then pushData 0 else if length < 65536 then pushData 1 else pushData 2

/-- The opcode that loads slot `i`, in its short form when there is one. -/
def loadOf (kind : SlotKind) (i : Nat) : Opcode := load kind (if h : i < 7 then some ⟨i, h⟩ else none)

/-- The opcode that stores into slot `i`, in its short form when there is one. -/
def storeOf (kind : SlotKind) (i : Nat) : Opcode := store kind (if h : i < 7 then some ⟨i, h⟩ else none)

end Opcode

end NeoScript
