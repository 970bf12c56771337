import NeoScript.CompiledUnit.Basic

/-!
# The binary form of a compiled unit

A unit is written field by field. Numbers are written seven bits a byte, lowest first, with the high bit on every
byte but the last; lengths and counts are numbers in front of what they measure; text is UTF-8.

A reader stops at the first problem and ignores what comes after the unit. A number may be written with more bytes
than it needs, up to the most that a number of its width can need.
-/

namespace NeoScript

/-- Why bytes cannot be read as a unit. -/
inductive WireError where
  /-- The bytes end inside the unit. -/
  | endOfInput
  | invalidText
  /-- A number goes on for too many bytes or is too large. -/
  | invalidNumber
  /-- A truth value is neither 0 nor 1. -/
  | invalidBool
  deriving DecidableEq, Repr

/-- What is said about bytes that cannot be read. -/
def WireError.message (e : WireError) : String :=
  "compiled unit serialization failed: " ++
    match e with
    | endOfInput => "Hit the end of buffer, expected more data"
    | invalidText => "Tried to parse invalid utf-8"
    | invalidNumber => "Found a varint that didn't terminate. Is the usize too big for this platform?"
    | invalidBool => "Found a bool that wasn't 0 or 1"

namespace Wire

/-! ### Writing -/

/-- The bytes of a number. -/
def number (n : Nat) : Bytes :=
  if n < 128 then [n.toUInt8] else (n % 128 + 128).toUInt8 :: number (n / 128)
termination_by n
decreasing_by omega

/-- The bytes of a byte string. -/
def bytes (bs : Bytes) : Bytes := number bs.length ++ bs

/-- The bytes of a text. -/
def text (s : String) : Bytes := bytes s.toUTF8.toList

/-- The bytes of items, after their number. -/
def items {α : Type} (write : α → Bytes) (l : List α) : Bytes := number l.length ++ l.flatMap write

/-- The bytes of a token. -/
def token (t : MethodToken) : Bytes :=
  t.hash.toList ++ text t.method ++ number t.parameters.toNat ++ [if t.returnsValue then 1 else 0, t.flags.bits]

/-- The bytes of a method and its range. -/
def method (e : String × MethodRange) : Bytes :=
  text e.1 ++ number e.2.start.toNat ++ number e.2.stop.toNat

/-- The bytes of a failure. -/
def failure (f : MethodFailure) : Bytes := text f.method ++ text f.message

/-! ### Reading -/

/-- Reads a value from the front of some bytes. -/
abbrev Reader := StateT Bytes (Except WireError)

/-- Reads one byte. -/
def readByte : Reader UInt8 := fun bs =>
  match bs with
  | [] => .error .endOfInput
  | b :: rest => .ok (b, rest)

/-- Reads a number of at most `count` bytes; if it has that many, the last one is at most `top`. -/
def readNumber (top : Nat) : (count : Nat) → Reader Nat
  | 0 => throw .invalidNumber
  | count + 1 => do
    let b ← readByte
    if b.toNat < 128 then
      if count = 0 ∧ top < b.toNat then throw .invalidNumber else return b.toNat
    else
      let rest ← readNumber top count
      return b.toNat - 128 + 128 * rest

/-- Reads a number of 16 bits. -/
def readNumber16 : Reader UInt16 := do return (← readNumber 3 3).toUInt16

/-- Reads a number of 32 bits. -/
def readNumber32 : Reader UInt32 := do return (← readNumber 15 5).toUInt32

/-- Reads a length or a count, a number of 64 bits. -/
def readLength : Reader Nat := readNumber 1 10

/-- Reads `count` bytes. -/
def readBytes (count : Nat) : Reader Bytes := fun bs =>
  match Script.split? count bs with
  | some r => .ok r
  | none => .error .endOfInput

/-- Reads a text. -/
def readText : Reader String := do
  let bs ← readBytes (← readLength)
  match String.fromUTF8? ⟨bs.toArray⟩ with
  | some s => return s
  | none => throw .invalidText

/-- Reads a truth value. -/
def readBool : Reader Bool := do
  match (← readByte).toNat with
  | 0 => return false
  | 1 => return true
  | _ => throw .invalidBool

/-- Reads `count` items. -/
def readCount {α : Type} (read : Reader α) : (count : Nat) → Reader (List α)
  | 0 => return []
  | count + 1 => do
    let a ← read
    let l ← readCount read count
    return a :: l

/-- Reads items, after their number. -/
def readItems {α : Type} (read : Reader α) : Reader (List α) := do readCount read (← readLength)

/-- Reads the hash of a contract. -/
def readHash : Reader ContractHash := do
  let bs ← readBytes 20
  if h : bs.toArray.size = 20 then return ⟨bs.toArray, h⟩ else throw .endOfInput

/-- Reads a token. -/
def readToken : Reader MethodToken := do
  let hash ← readHash
  let method ← readText
  let parameters ← readNumber16
  let returnsValue ← readBool
  let flags ← readByte
  return { hash, method, parameters, returnsValue, flags := ⟨flags⟩ }

/-- Reads a method and its range. -/
def readMethod : Reader (String × MethodRange) := do
  let name ← readText
  let start ← readNumber32
  let stop ← readNumber32
  return (name, { start, stop })

/-- Reads a failure. -/
def readFailure : Reader MethodFailure := do
  let method ← readText
  let message ← readText
  return { method, message }

/-- Reads a unit. -/
def readUnit : Reader CompiledUnit := do
  let script ← readBytes (← readLength)
  let tokens ← readItems readToken
  let methods ← readItems readMethod
  let staticFields ← readByte
  let failures ← readItems readFailure
  return { script, tokens, methods := .ofList methods, staticFields, failures }

end Wire

namespace CompiledUnit

/-- The binary form of a unit. -/
def dump (u : CompiledUnit) : Bytes :=
  Wire.bytes u.script ++ Wire.items Wire.token u.tokens ++ Wire.items Wire.method u.methods.entries ++
    [u.staticFields] ++ Wire.items Wire.failure u.failures

/-- The unit whose binary form the bytes start with. -/
def load (bs : Bytes) : Except WireError CompiledUnit := (Wire.readUnit.run bs).map Prod.fst

end CompiledUnit

end NeoScript
