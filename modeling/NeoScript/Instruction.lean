import NeoScript.Bytes
import NeoScript.Opcode.Encoding

/-!
# Instructions with symbolic targets

An emitted instruction has an opcode, the bytes of its operand and, for a control transfer, a symbolic
`Target`. Targets name other instructions by `Handle`, so they stay right while code is moved about; the
operand of a control transfer is worked out from the addresses only when the instruction is encoded.
-/

namespace NeoScript

/-- The name of an instruction: its number in the order of emission. -/
abbrev Handle := Nat

/-- The destination of a control transfer. -/
inductive Target where
  /-- Not known yet; encoded as the offset zero. -/
  | unresolved
  /-- The start of an instruction. -/
  | code (handle : Handle)
  /-- The place after the last instruction. -/
  | scriptEnd
  /-- The two handlers of a protected block; a missing one is encoded as the offset zero. -/
  | handlers (except finalizer : Option Handle)
  deriving DecidableEq, Repr

namespace Target

/-- The instructions that a target refers to. -/
def handles : Target → List Handle
  | code handle => [handle]
  | handlers except finalizer => except.toList ++ finalizer.toList
  | unresolved | scriptEnd => []

/-- Replaces one reference; without a new handle the reference is dropped. -/
def swap (old : Handle) (new slot : Option Handle) : Option Handle := if slot = some old then new else slot

/-- The target in which every reference to `old` is a reference to `new`, or is dropped. -/
def retarget (t : Target) (old : Handle) (new : Option Handle) : Target :=
  match t with
  | code handle => if handle = old then (new.map code).getD unresolved else t
  | handlers except finalizer => handlers (swap old new except) (swap old new finalizer)
  | unresolved | scriptEnd => t

end Target

/-- An emitted instruction. -/
structure Instruction where
  opcode : Opcode
  /-- The operand, without the length of a sized operand. -/
  operand : Bytes := []
  /-- Meaningful only for an opcode with a target. -/
  target : Target := .unresolved
  deriving DecidableEq, Repr

namespace Instruction

/-- Whether `payload` is an operand that the opcode accepts. A control transfer accepts any, because its
operand is never written. -/
def accepts (o : Opcode) (payload : Bytes) : Bool :=
  match o.operand with
  | .fixed size => payload.length == size
  | .sized _ => payload.length ≤ o.maxPayload
  | .offset _ | .handlers _ => true

/-- The instruction with the given operand, if the opcode accepts it. -/
def ofOperand? (o : Opcode) (payload : Bytes) : Option Instruction :=
  if accepts o payload then some { opcode := o, operand := payload } else none

/-- The control transfer with the given target, if the opcode is one. -/
def ofTarget? (o : Opcode) (target : Target) : Option Instruction :=
  if o.hasTarget then some { opcode := o, target } else none

/-- The target of a control transfer. -/
def target? (i : Instruction) : Option Target := if i.opcode.hasTarget then some i.target else none

/-- The number of bytes of the encoded instruction. -/
def size (i : Instruction) : Nat := i.opcode.encodedSize i.operand.length

theorem size_pos (i : Instruction) : 0 < i.size := by
  unfold size Opcode.encodedSize
  split <;> omega

/-- The number that the instruction pushes, if it pushes a constant number. -/
def pushedInt? (i : Instruction) : Option Int :=
  match i.opcode with
  | .pushInt _ => some (Bytes.toInt i.operand)
  | o => o.smallValue?

/-- The instruction with four-byte offsets; itself if it has no such sibling. -/
def widened (i : Instruction) : Instruction :=
  match i.opcode.wide? with
  | some wide => { i with opcode := wide }
  | none => i

/-! ### Encoding -/

/-- Whether `offset` fits an operand of `width` bytes. Every width but one is written with four bytes. -/
def offsetFits (width : Nat) (offset : Int) : Bool :=
  Bytes.fitsSigned (if width = 1 then 1 else 4) offset

/-- The bytes of an offset, if it fits. -/
def encodeOffset? (width : Nat) (offset : Int) : Option Bytes :=
  if offsetFits width offset then some (Bytes.ofInt (if width = 1 then 1 else 4) offset) else none

/-- The offsets to encode for an instruction at `address` in a script of `scriptSize` bytes, where `start`
gives the address of an instruction. There are none if the target refers to an instruction without address. -/
def offsets? (target : Target) (address scriptSize : Nat) (start : Handle → Option Nat) :
    Option (List Int) :=
  let half : Option Handle → Option Int
    | none => some 0
    | some h => (start h).map fun a => (a : Int) - address
  match target with
  | .unresolved => some [0]
  | .code h => (half (some h)).map fun d => [d]
  | .scriptEnd => some [(scriptSize : Int) - address]
  | .handlers except finalizer => do
    let e ← half except
    let f ← half finalizer
    return [e, f]

/-- The operand bytes of a control transfer whose offsets are `offsets`: two offsets share the operand. -/
def encodeOffsets? (o : Opcode) (offsets : List Int) : Option Bytes :=
  let width := if offsets.length = 2 then o.operandSize / 2 else o.operandSize
  (offsets.mapM (encodeOffset? width)).map List.flatten

/-- The bytes of an instruction at `address`. There are none if a target has no address or an offset does
not fit. -/
def encode? (i : Instruction) (address scriptSize : Nat) (start : Handle → Option Nat) : Option Bytes :=
  match i.opcode.operand with
  | .fixed _ => some (i.opcode.byte :: i.operand)
  | .sized n => some (i.opcode.byte :: (Bytes.ofNat n i.operand.length ++ i.operand))
  | .offset _ | .handlers _ => do
    let offsets ← offsets? i.target address scriptSize start
    let bytes ← encodeOffsets? i.opcode offsets
    return i.opcode.byte :: bytes

end Instruction

end NeoScript
