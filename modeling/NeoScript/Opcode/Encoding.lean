import NeoScript.Opcode.Basic

/-!
# Bytes and mnemonics of opcodes

`Opcode.byte` is the byte of an opcode in a script and `Opcode.mnemonic` its name in a listing.
`Opcode.ofByte?` reads the byte back: it looks through `Opcode.all`, which lists every opcode once.
-/

namespace NeoScript

-- Powers are those of the numbers, whatever other instances are in scope.
attribute [local instance (high)] instPowNat

/-- The place of a test among the jump opcodes. -/
def JumpTest.index : JumpTest → Nat
  | always => 0
  | ifTrue => 1
  | ifFalse => 2
  | eq => 3
  | ne => 4
  | gt => 5
  | ge => 6
  | lt => 7
  | le => 8

/-- The ending of a jump's mnemonic. -/
def JumpTest.mnemonic : JumpTest → String
  | always => ""
  | ifTrue => "IF"
  | ifFalse => "IFNOT"
  | eq => "EQ"
  | ne => "NE"
  | gt => "GT"
  | ge => "GE"
  | lt => "LT"
  | le => "LE"

/-- Every jump test, in the order of the opcodes. -/
def JumpTest.all : List JumpTest := [always, ifTrue, ifFalse, eq, ne, gt, ge, lt, le]

/-- The place of a slot family among the load and store opcodes. -/
def SlotKind.index : SlotKind → Nat
  | static => 0
  | frame => 1
  | argument => 2

/-- The ending of a load's or store's mnemonic. -/
def SlotKind.mnemonic : SlotKind → String
  | static => "SFLD"
  | frame => "LOC"
  | argument => "ARG"

/-- Every slot family, in the order of the opcodes. -/
def SlotKind.all : List SlotKind := [static, frame, argument]

namespace Opcode

/-- The place of a slot opcode in its group of eight: the short forms, then the form with an operand. -/
def slotOffset : Option (Fin 7) → Nat
  | some slot => slot.val
  | none => 7

/-- The number of an opcode, from 0 to 255. -/
def code : Opcode → Nat
  | pushInt scale => scale.val
  | pushBool true => 0x08
  | pushBool false => 0x09
  | pushData scale => 0x0C + scale.val
  | push value => 0x10 + value.val
  | jump test far => 0x22 + 2 * test.index + far.toNat
  | call far => 0x34 + far.toNat
  | tryEnter far => 0x3B + far.toNat
  | tryLeave far => 0x3D + far.toNat
  | load kind slot => 0x58 + 16 * kind.index + slotOffset slot
  | store kind slot => 0x60 + 16 * kind.index + slotOffset slot
  | pushAddress => 0x0A
  | pushNull => 0x0B
  | pushMinusOne => 0x0F
  | nop => 0x21
  | callPointer => 0x36
  | callToken => 0x37
  | abort => 0x38
  | assert => 0x39
  | throw => 0x3A
  | finallyLeave => 0x3F
  | ret => 0x40
  | syscall => 0x41
  | depth => 0x43
  | drop => 0x45
  | nip => 0x46
  | dropAt => 0x48
  | clear => 0x49
  | dup => 0x4A
  | dupBelow => 0x4B
  | pick => 0x4D
  | tuck => 0x4E
  | swap => 0x50
  | rot => 0x51
  | roll => 0x52
  | reverse3 => 0x53
  | reverse4 => 0x54
  | reverseN => 0x55
  | initStatic => 0x56
  | initSlot => 0x57
  | newBuffer => 0x88
  | memCopy => 0x89
  | cat => 0x8B
  | subStr => 0x8C
  | left => 0x8D
  | right => 0x8E
  | invert => 0x90
  | bitAnd => 0x91
  | bitOr => 0x92
  | bitXor => 0x93
  | equal => 0x97
  | notEqual => 0x98
  | sign => 0x99
  | abs => 0x9A
  | negate => 0x9B
  | inc => 0x9C
  | dec => 0x9D
  | add => 0x9E
  | sub => 0x9F
  | mul => 0xA0
  | div => 0xA1
  | mod => 0xA2
  | pow => 0xA3
  | sqrt => 0xA4
  | modMul => 0xA5
  | modPow => 0xA6
  | shl => 0xA8
  | shr => 0xA9
  | not => 0xAA
  | boolAnd => 0xAB
  | boolOr => 0xAC
  | nonZero => 0xB1
  | numEqual => 0xB3
  | numNotEqual => 0xB4
  | lt => 0xB5
  | le => 0xB6
  | gt => 0xB7
  | ge => 0xB8
  | min => 0xB9
  | max => 0xBA
  | within => 0xBB
  | packMap => 0xBE
  | packStruct => 0xBF
  | pack => 0xC0
  | unpack => 0xC1
  | newArray0 => 0xC2
  | newArray => 0xC3
  | newArrayOf => 0xC4
  | newStruct0 => 0xC5
  | newStruct => 0xC6
  | newMap => 0xC8
  | size => 0xCA
  | hasKey => 0xCB
  | keys => 0xCC
  | values => 0xCD
  | pickItem => 0xCE
  | append => 0xCF
  | setItem => 0xD0
  | reverseItems => 0xD1
  | remove => 0xD2
  | clearItems => 0xD3
  | popItem => 0xD4
  | isNull => 0xD8
  | isType => 0xD9
  | convert => 0xDB
  | abortMsg => 0xE0
  | assertMsg => 0xE1

/-- The byte of an opcode in a script. -/
def byte (o : Opcode) : UInt8 := o.code.toUInt8

/-- The mark of a far control transfer. -/
def farMark (far : Bool) : String := if far then "_L" else ""

/-- The ending of a slot opcode: its slot, or nothing when the slot is an operand. -/
def slotMark : Option (Fin 7) → String
  | some slot => toString slot.val
  | none => ""

/-- The name of an opcode in a listing. -/
def mnemonic : Opcode → String
  | pushInt scale => "PUSHINT" ++ toString (8 * 2 ^ scale.val)
  | pushBool true => "PUSHT"
  | pushBool false => "PUSHF"
  | pushData scale => "PUSHDATA" ++ toString (2 ^ scale.val)
  | push value => "PUSH" ++ toString value.val
  | jump test far => "JMP" ++ test.mnemonic ++ farMark far
  | call far => "CALL" ++ farMark far
  | tryEnter far => "TRY" ++ farMark far
  | tryLeave far => "ENDTRY" ++ farMark far
  | load kind slot => "LD" ++ kind.mnemonic ++ slotMark slot
  | store kind slot => "ST" ++ kind.mnemonic ++ slotMark slot
  | pushAddress => "PUSHA"
  | pushNull => "PUSHNULL"
  | pushMinusOne => "PUSHM1"
  | nop => "NOP"
  | callPointer => "CALLA"
  | callToken => "CALLT"
  | abort => "ABORT"
  | assert => "ASSERT"
  | throw => "THROW"
  | finallyLeave => "ENDFINALLY"
  | ret => "RET"
  | syscall => "SYSCALL"
  | depth => "DEPTH"
  | drop => "DROP"
  | nip => "NIP"
  | dropAt => "XDROP"
  | clear => "CLEAR"
  | dup => "DUP"
  | dupBelow => "OVER"
  | pick => "PICK"
  | tuck => "TUCK"
  | swap => "SWAP"
  | rot => "ROT"
  | roll => "ROLL"
  | reverse3 => "REVERSE3"
  | reverse4 => "REVERSE4"
  | reverseN => "REVERSEN"
  | initStatic => "INITSSLOT"
  | initSlot => "INITSLOT"
  | newBuffer => "NEWBUFFER"
  | memCopy => "MEMCPY"
  | cat => "CAT"
  | subStr => "SUBSTR"
  | left => "LEFT"
  | right => "RIGHT"
  | invert => "INVERT"
  | bitAnd => "AND"
  | bitOr => "OR"
  | bitXor => "XOR"
  | equal => "EQUAL"
  | notEqual => "NOTEQUAL"
  | sign => "SIGN"
  | abs => "ABS"
  | negate => "NEGATE"
  | inc => "INC"
  | dec => "DEC"
  | add => "ADD"
  | sub => "SUB"
  | mul => "MUL"
  | div => "DIV"
  | mod => "MOD"
  | pow => "POW"
  | sqrt => "SQRT"
  | modMul => "MODMUL"
  | modPow => "MODPOW"
  | shl => "SHL"
  | shr => "SHR"
  | not => "NOT"
  | boolAnd => "BOOLAND"
  | boolOr => "BOOLOR"
  | nonZero => "NZ"
  | numEqual => "NUMEQUAL"
  | numNotEqual => "NUMNOTEQUAL"
  | lt => "LT"
  | le => "LE"
  | gt => "GT"
  | ge => "GE"
  | min => "MIN"
  | max => "MAX"
  | within => "WITHIN"
  | packMap => "PACKMAP"
  | packStruct => "PACKSTRUCT"
  | pack => "PACK"
  | unpack => "UNPACK"
  | newArray0 => "NEWARRAY0"
  | newArray => "NEWARRAY"
  | newArrayOf => "NEWARRAY_T"
  | newStruct0 => "NEWSTRUCT0"
  | newStruct => "NEWSTRUCT"
  | newMap => "NEWMAP"
  | size => "SIZE"
  | hasKey => "HASKEY"
  | keys => "KEYS"
  | values => "VALUES"
  | pickItem => "PICKITEM"
  | append => "APPEND"
  | setItem => "SETITEM"
  | reverseItems => "REVERSEITEMS"
  | remove => "REMOVE"
  | clearItems => "CLEARITEMS"
  | popItem => "POPITEM"
  | isNull => "ISNULL"
  | isType => "ISTYPE"
  | convert => "CONVERT"
  | abortMsg => "ABORTMSG"
  | assertMsg => "ASSERTMSG"

/-- The forms of a slot opcode. -/
def slots : List (Option (Fin 7)) := (List.finRange 7).map some ++ [none]

/-- Every opcode once. -/
def all : List Opcode :=
  (List.finRange 6).map pushInt ++ [pushBool true, pushBool false] ++ (List.finRange 3).map pushData
    ++ (List.finRange 17).map push
    ++ JumpTest.all.flatMap (fun test => [jump test false, jump test true])
    ++ [call false, call true, tryEnter false, tryEnter true, tryLeave false, tryLeave true]
    ++ SlotKind.all.flatMap (fun kind => slots.map (load kind) ++ slots.map (store kind))
    ++ [pushAddress, pushNull, pushMinusOne, nop, callPointer, callToken, abort, assert, throw,
      finallyLeave, ret, syscall, depth, drop, nip, dropAt, clear, dup, dupBelow, pick, tuck, swap,
      rot, roll, reverse3, reverse4, reverseN, initStatic, initSlot, newBuffer, memCopy, cat,
      subStr, left, right, invert, bitAnd, bitOr, bitXor, equal, notEqual, sign, abs, negate, inc,
      dec, add, sub, mul, div, mod, pow, sqrt, modMul, modPow, shl, shr, not, boolAnd, boolOr,
      nonZero, numEqual, numNotEqual, lt, le, gt, ge, min, max, within, packMap, packStruct, pack,
      unpack, newArray0, newArray, newArrayOf, newStruct0, newStruct, newMap, size, hasKey, keys,
      values, pickItem, append, setItem, reverseItems, remove, clearItems, popItem, isNull, isType,
      convert, abortMsg, assertMsg]

/-- The opcode whose byte is `b`. -/
def ofByte? (b : UInt8) : Option Opcode := all.find? fun o => o.byte == b

end Opcode

end NeoScript
