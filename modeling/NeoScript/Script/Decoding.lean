import NeoScript.Instruction

/-!
# Decoding a script

A script is a concatenation of instructions: an opcode byte, then its operand. `decode` splits a script into
its instructions and works out the addresses to which they may transfer control, or says where the first
instruction stands that is none.
-/

namespace NeoScript

/-- An instruction read from a script. -/
structure Decoded where
  /-- The address of its first byte. -/
  address : Nat
  opcode : Opcode
  /-- The operand, without the length of a sized operand. -/
  operand : Bytes
  /-- The address a jump, a call or the end of a protected block leads to. -/
  target : Option Nat := none
  /-- The addresses of the two handlers of a protected block. -/
  handlers : Option (Option Nat × Option Nat) := none
  deriving DecidableEq, Repr

namespace Decoded

/-- The number of bytes of the instruction. -/
def size (d : Decoded) : Nat := d.opcode.encodedSize d.operand.length

/-- Every address the instruction names. -/
def destinations (d : Decoded) : List Nat :=
  d.target.toList ++
    match d.handlers with
    | some (except, finalizer) => except.toList ++ finalizer.toList
    | none => []

end Decoded

/-- Why bytes are no script. -/
inductive DecodeError where
  /-- The byte at `address` is no opcode. -/
  | unknownOpcode (address : Nat) (byte : UInt8)
  /-- The script ends inside the operand of the instruction at `address`. -/
  | truncated (address : Nat) (opcode : Opcode)
  deriving DecidableEq, Repr

/-- What is said about a failed decoding. -/
def DecodeError.message : DecodeError → String
  | unknownOpcode address byte => "unknown opcode 0x" ++ Bytes.hexUpper byte ++ " at address " ++ toString address
  | truncated address opcode => "truncated " ++ opcode.mnemonic ++ " operand at address " ++ toString address

namespace Script

/-- The first `n` bytes and the rest, if there are that many. -/
def split? (n : Nat) (bs : Bytes) : Option (Bytes × Bytes) :=
  let front := bs.take n
  if front.length = n then some (front, bs.drop n) else none

/-- The operand at the head of `bs` and the rest. -/
def operand? (o : Opcode) (bs : Bytes) : Option (Bytes × Bytes) :=
  match o.operand with
  | .sized n =>
    match split? n bs with
    | some (length, rest) => split? (Bytes.toNat length) rest
    | none => none
  | _ => split? o.operandSize bs

/-- The highest address. -/
def maxAddress : Nat := 4294967295

/-- The address at a distance; one that is none becomes the highest. -/
def resolve (address : Nat) (offset : Int) : Nat :=
  let dest := (address : Int) + offset
  if 0 ≤ dest ∧ dest ≤ maxAddress then dest.toNat else maxAddress

/-- The address of a handler; the offset zero marks a missing one. -/
def resolveHandler (address : Nat) (offset : Int) : Option Nat :=
  if offset = 0 then none else some (resolve address offset)

/-- The decoded instruction with its destinations. -/
def locate (address : Nat) (o : Opcode) (operand : Bytes) : Decoded :=
  match o.operand with
  | .offset _ => { address, opcode := o, operand, target := some (resolve address (Bytes.toInt operand)) }
  | .handlers width =>
    { address, opcode := o, operand,
      handlers := some (resolveHandler address (Bytes.toInt (operand.take width)),
        resolveHandler address (Bytes.toInt (operand.drop width))) }
  | .fixed _ | .sized _ => { address, opcode := o, operand }

theorem split?_length {n : Nat} {bs front rest : Bytes} (h : split? n bs = some (front, rest)) :
    rest.length ≤ bs.length := by
  simp only [split?] at h
  split at h
  · simp only [Option.some.injEq, Prod.mk.injEq] at h
    rw [← h.2, List.length_drop]
    omega
  · cases h

theorem operand?_length {o : Opcode} {bs operand rest : Bytes} (h : operand? o bs = some (operand, rest)) :
    rest.length ≤ bs.length := by
  unfold operand? at h
  split at h
  · split at h
    · next h₁ => exact Nat.le_trans (split?_length h) (split?_length h₁)
    · cases h
  · exact split?_length h

/-- Decodes the bytes from `address` on; `done` holds the instructions before, the latest first. -/
def decodeFrom (address : Nat) (bs : Bytes) (done : List Decoded) : Except DecodeError (List Decoded) :=
  match bs with
  | [] => .ok done.reverse
  | b :: rest =>
    match Opcode.ofByte? b with
    | none => .error (.unknownOpcode address b)
    | some o =>
      match h : operand? o rest with
      | none => .error (.truncated address o)
      | some (operand, rest') =>
        let d := locate address o operand
        have : rest'.length ≤ rest.length := operand?_length h
        decodeFrom (address + d.size) rest' (d :: done)
termination_by bs.length
decreasing_by simp only [List.length_cons]; omega

/-- The instructions of a script. -/
def decode (script : Bytes) : Except DecodeError (List Decoded) := decodeFrom 0 script []

end Script

end NeoScript
