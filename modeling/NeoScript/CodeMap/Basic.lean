import NeoScript.Instruction
import Std.Data.ExtTreeSet

/-!
# Code maps

A `CodeMap` holds every instruction emitted so far and the order of those that are live. Addresses are
contiguous from zero: each live instruction starts where the one before it ends. The map caches the start
address of each place in the order, the place of each handle and which live instructions are control transfers.
When the order or a size changes, addresses and places are worked out again from the first place that it concerns.

A removed instruction keeps its handle, which is never used again.
-/

namespace NeoScript

/-- Emitted instructions and the order of the live ones. -/
structure CodeMap where
  /-- Every instruction ever inserted, by handle. -/
  arena : Array Instruction := #[]
  /-- The live instructions in address order. -/
  order : Array Handle := #[]
  /-- The start address of each place in the order. -/
  starts : Array Nat := #[]
  /-- The place of each handle in the order, for the live ones. -/
  positions : Array (Option Nat) := #[]
  /-- The live control transfers. -/
  withTarget : Std.ExtTreeSet Handle := ∅
  /-- The number of bytes of the live instructions. -/
  size : Nat := 0

namespace CodeMap

instance : Inhabited CodeMap := ⟨{}⟩

/-- The handle that the next inserted instruction gets. -/
def nextHandle (m : CodeMap) : Handle := m.arena.size

/-- The number of live instructions. -/
def length (m : CodeMap) : Nat := m.order.size

/-- Appends an instruction after the last live one. -/
def insert (m : CodeMap) (i : Instruction) : CodeMap :=
  let handle := m.arena.size
  let position := m.order.size
  let address := m.size
  { arena := m.arena.push i
    order := m.order.push handle
    starts := m.starts.push address
    positions := m.positions.push (some position)
    withTarget := if i.opcode.hasTarget then m.withTarget.insert handle else m.withTarget
    size := address + i.size }

@[simp] theorem nextHandle_insert (m : CodeMap) (i : Instruction) :
    (m.insert i).nextHandle = m.nextHandle + 1 := by
  simp [nextHandle, insert]

@[simp] theorem length_insert (m : CodeMap) (i : Instruction) : (m.insert i).length = m.length + 1 := by
  simp [length, insert]

@[simp] theorem size_insert (m : CodeMap) (i : Instruction) : (m.insert i).size = m.size + i.size := rfl

/-! ### Look-up by handle -/

/-- The instruction of a handle, live or removed. -/
def instruction? (m : CodeMap) (h : Handle) : Option Instruction := m.arena[h]?

/-- The target of the instruction of a handle. -/
def target? (m : CodeMap) (h : Handle) : Option Target := (m.instruction? h).bind Instruction.target?

/-- The place of a live instruction in the order. -/
def position? (m : CodeMap) (h : Handle) : Option Nat := m.positions[h]?.join

/-- Whether the instruction is live. -/
def contains (m : CodeMap) (h : Handle) : Bool := (m.position? h).isSome

/-- The address of the first byte of a live instruction. -/
def start? (m : CodeMap) (h : Handle) : Option Nat := (m.position? h).bind fun i => m.starts[i]?

/-- The number of bytes of an instruction. -/
def sizeOf (arena : Array Instruction) (h : Handle) : Nat := (arena[h]?.map Instruction.size).getD 0

/-- The address of the last byte of a live instruction. -/
def last? (m : CodeMap) (h : Handle) : Option Nat :=
  (m.start? h).map fun a => a + sizeOf m.arena h - 1

/-- The first live instruction. -/
def front? (m : CodeMap) : Option Handle := m.order[0]?

/-- The live instruction at the end. -/
def back? (m : CodeMap) : Option Handle := m.order.back?

@[simp] theorem back?_insert (m : CodeMap) (i : Instruction) : (m.insert i).back? = some m.nextHandle := by
  simp [back?, insert, nextHandle]

/-- The live instruction after `h`. -/
def next? (m : CodeMap) (h : Handle) : Option Handle := (m.position? h).bind fun i => m.order[i + 1]?

/-- The live instruction before `h`. -/
def prev? (m : CodeMap) (h : Handle) : Option Handle :=
  match m.position? h with
  | some (i + 1) => m.order[i]?
  | _ => none

/-! ### Look-up by address -/

/-- The live instruction that starts at `address`. -/
def atStart? (m : CodeMap) (address : Nat) : Option Handle :=
  (m.starts.findIdx? (· == address)).bind fun i => m.order[i]?

/-- The live instruction one of whose bytes is at `address`. -/
def covering? (m : CodeMap) (address : Nat) : Option Handle :=
  if m.size ≤ address then none
  else
    match m.starts.findIdx (fun a => decide (address < a)) with
    | 0 => none
    | i + 1 => m.order[i]?

/-! ### Views -/

/-- The live instructions in address order, each with its start address and handle. -/
def instructions (m : CodeMap) : List (Nat × Handle × Instruction) :=
  (m.order.toList.zip m.starts.toList).filterMap fun e =>
    (m.instruction? e.1).map fun i => (e.2, e.1, i)

/-- The live control transfers in the order of their handles. -/
def linked (m : CodeMap) : List Handle := m.withTarget.toList

/-! ### Caches -/

/-- Clears what is cached for a removed instruction. -/
def forget (m : CodeMap) (h : Handle) : CodeMap :=
  { m with positions := m.positions.setIfInBounds h none, withTarget := m.withTarget.erase h }

/-- Gives an instruction the next place and the address after the places before it. -/
def place (m : CodeMap) (h : Handle) : CodeMap :=
  { m with
    starts := m.starts.push m.size
    positions := m.positions.setIfInBounds h (some m.starts.size)
    size := m.size + sizeOf m.arena h }

/-- The address at which a place begins, from the place before it. -/
def beginOf (m : CodeMap) : Nat → Nat
  | 0 => 0
  | i + 1 => (m.starts[i]?).getD 0 + ((m.order[i]?).map (sizeOf m.arena)).getD 0

/-- Works out the addresses and places from the place `first` on. -/
def reflow (m : CodeMap) (first : Nat) : CodeMap :=
  (m.order.toList.drop first).foldl place { m with starts := m.starts.take first, size := m.beginOf first }

@[simp] theorem arena_foldl_place (hs : List Handle) (m : CodeMap) : (hs.foldl place m).arena = m.arena := by
  induction hs generalizing m with
  | nil => rfl
  | cons h hs ih => exact ih (m.place h)

@[simp] theorem arena_reflow (m : CodeMap) (first : Nat) : (m.reflow first).arena = m.arena := arena_foldl_place _ _

/-! ### Changing targets -/

/-- Gives the instruction `h` a new target. -/
def setTarget (m : CodeMap) (h : Handle) (target : Target) : CodeMap :=
  { m with arena := m.arena.modify h fun i => { i with target } }

end CodeMap

end NeoScript
