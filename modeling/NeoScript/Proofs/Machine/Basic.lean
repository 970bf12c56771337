import Mathlib.Logic.Relation
import NeoScript.Proofs.Generator.Listing

/-!
# The machine

What the instructions do. The machine has an operand stack, a heap for the arrays, buffers and maps that its values refer
to, static slots, and the slots of the activation that is running. Integers are unbounded. A step that the machine refuses,
for want of an operand or because an operand is of the wrong kind or out of range, has no result: the machine faults.

Code runs from one handle to the next. It is left for a handle that is not in it, for example the one behind it.
Exceptions and services of the host are not modelled.
-/

namespace NeoScript.Machine

/-! ### Values -/

/-- A value. Copies of a buffer, of an array or of a map share what it refers to. -/
inductive Value where
  | null
  | bool (b : Bool)
  | int (n : Int)
  | bytes (bs : Bytes)
  | buffer (ref : Nat)
  | array (ref : Nat)
  | map (ref : Nat)
  deriving DecidableEq, Repr

namespace Value

/-- The number that a value counts as. -/
def int? : Value → Option Int
  | int n => some n
  | bool b => some b.toInt
  | _ => none

/-- The position or the count that a value counts as. -/
def index? (v : Value) : Option Nat := v.int?.bind Int.toNat?

/-- Whether a test of the value holds. -/
def isTrue : Value → Bool
  | null => false
  | bool b => b
  | int n => n != 0
  | _ => true

/-- Whether the value can be a key of a map. -/
def isKey : Value → Bool
  | bool _ | int _ | bytes _ => true
  | _ => false

@[simp] lemma index?_int (n : Nat) : (int n).index? = some n := rfl

end Value

/-- The keys of a map with their values, in the order in which the keys were put in. -/
abbrev Entries := List (Value × Value)

/-- The entries with a value for a key. A key that is there keeps its place, and a new one comes last. -/
def Entries.put (k v : Value) : Entries → Entries
  | [] => [(k, v)]
  | e :: es => if e.1 = k then (k, v) :: es else e :: put k v es

/-- What values refer to. -/
structure Heap where
  arrays : List (List Value) := []
  buffers : List Bytes := []
  maps : List Entries := []
  deriving DecidableEq, Repr

namespace Heap

/-- The bytes of a byte string or of a buffer. -/
def bytes? (h : Heap) : Value → Option Bytes
  | .bytes bs => some bs
  | .buffer ref => h.buffers[ref]?
  | _ => none

/-- The heap with one more array. -/
def addArray (h : Heap) (vs : List Value) : Heap := { h with arrays := h.arrays ++ [vs] }

/-- The heap with one more buffer. -/
def addBuffer (h : Heap) (bs : Bytes) : Heap := { h with buffers := h.buffers ++ [bs] }

/-- The heap with one more map. -/
def addMap (h : Heap) (es : Entries) : Heap := { h with maps := h.maps ++ [es] }

/-- The heap with other items in an array. -/
def setArray (h : Heap) (ref : Nat) (vs : List Value) : Heap := { h with arrays := h.arrays.set ref vs }

/-- The heap with other bytes in a buffer. -/
def setBuffer (h : Heap) (ref : Nat) (bs : Bytes) : Heap := { h with buffers := h.buffers.set ref bs }

/-- The heap with other entries in a map. -/
def setMap (h : Heap) (ref : Nat) (es : Entries) : Heap := { h with maps := h.maps.set ref es }

/-- Whether two values are equal, down to the items of arrays. Arrays that contain themselves are never compared, and maps
are equal only to themselves. -/
def same? (h : Heap) : (depth : Nat) → Value → Value → Option Bool
  | 0, .array _, .array _ => none
  | depth + 1, .array r, .array s => do
    let vs ← h.arrays[r]?
    let ws ← h.arrays[s]?
    if vs.length = ws.length then
      (vs.zip ws).foldlM (fun same p => if same then h.same? depth p.1 p.2 else some false) true
    else some false
  | _, .buffer r, .buffer s => do return (← h.buffers[r]?) == (← h.buffers[s]?)
  | _, v, w => some (v == w)

end Heap

/-! ### Operands -/

/-- What the instructions without slots and control transfers work on. -/
structure Operands where
  /-- The operand stack, its top first. -/
  stack : List Value := []
  heap : Heap := {}
  deriving DecidableEq, Repr

/-- What an instruction does to the operands, unless the machine faults. -/
abbrev Action := StateT Operands Option

namespace Action

def pop : Action Value
  | ⟨v :: stack, heap⟩ => some (v, ⟨stack, heap⟩)
  | ⟨[], _⟩ => none

def push (v : Value) : Action Unit := fun m => some ((), ⟨v :: m.stack, m.heap⟩)

def popInt : Action Int := do (← pop).int?

def popIndex : Action Nat := do (← pop).index?

def popBytes : Action Bytes := do
  let v ← pop
  (← get).heap.bytes? v

/-- Takes an array off the stack: the reference and the items. -/
def popArray : Action (Nat × List Value) := do
  match ← pop with
  | .array ref => return (ref, ← ((← get).heap.arrays[ref]? : Option _))
  | _ => failure

/-- Copies the item `depth` places below the top. -/
def copy (depth : Nat) : Action Unit := do push (← ((← get).stack[depth]? : Option _))

/-- Reorders the top `count` items. -/
def reorder (count : Nat) (f : List Value → List Value) : Action Unit := fun m =>
  if count ≤ m.stack.length then some ((), { m with stack := f (m.stack.take count) ++ m.stack.drop count }) else none

def newArray (vs : List Value) : Action Unit := fun m =>
  some ((), ⟨.array m.heap.arrays.length :: m.stack, m.heap.addArray vs⟩)

def newBuffer (bs : Bytes) : Action Unit := fun m =>
  some ((), ⟨.buffer m.heap.buffers.length :: m.stack, m.heap.addBuffer bs⟩)

def newMap : Action Unit := fun m => some ((), ⟨.map m.heap.maps.length :: m.stack, m.heap.addMap []⟩)

def setArray (ref : Nat) (vs : List Value) : Action Unit := modify fun m => { m with heap := m.heap.setArray ref vs }

def setBuffer (ref : Nat) (bs : Bytes) : Action Unit := modify fun m => { m with heap := m.heap.setBuffer ref bs }

def setMap (ref : Nat) (es : Entries) : Action Unit := modify fun m => { m with heap := m.heap.setMap ref es }

/-- An operation on one number. -/
def unary (f : Int → Int) : Action Unit := do push (.int (f (← popInt)))

/-- An operation on two numbers. -/
def binary (f : Int → Int → Option Value) : Action Unit := do
  let b ← popInt
  let a ← popInt
  push (← (f a b : Option _))

/-- An operation on two numbers that always has a number for its result. -/
def arithmetic (f : Int → Int → Int) : Action Unit := binary fun a b => some (.int (f a b))

/-- A division, which refuses the divisor zero. -/
def division (f : Int → Int → Int) : Action Unit := binary fun a b => if b = 0 then none else some (.int (f a b))

/-- A comparison of two numbers. -/
def comparison (f : Int → Int → Bool) : Action Unit := binary fun a b => some (.bool (f a b))

/-- Takes the top `count` items off the stack. -/
def popN (count : Nat) : Action (List Value) := fun m =>
  if count ≤ m.stack.length then some (m.stack.take count, { m with stack := m.stack.drop count }) else none

/-- Puts a value in the place of an item of an array or of a byte of a buffer, or gives it to a key of a map. -/
def setItem : Action Unit := do
  let v ← pop
  let k ← pop
  match ← pop with
  | .array ref =>
    let i ← (k.index? : Option _)
    let vs ← ((← get).heap.arrays[ref]? : Option _)
    if i < vs.length then setArray ref (vs.set i v) else failure
  | .buffer ref =>
    let i ← (k.index? : Option _)
    let bs ← ((← get).heap.buffers[ref]? : Option _)
    let byte ← (v.index? : Option _)
    if i < bs.length ∧ byte < 256 then setBuffer ref (bs.set i byte.toUInt8) else failure
  | .map ref =>
    let es ← ((← get).heap.maps[ref]? : Option _)
    if k.isKey then setMap ref (Entries.put k v es) else failure
  | _ => failure

/-- The item at a position, a value of an array or a byte as a number, or the value of a key. -/
def pickItem : Action Unit := do
  let k ← pop
  match ← pop with
  | .array ref =>
    let i ← (k.index? : Option _)
    let vs ← ((← get).heap.arrays[ref]? : Option _)
    push (← (vs[i]? : Option _))
  | .map ref =>
    let es ← ((← get).heap.maps[ref]? : Option _)
    push (← (es.lookup k : Option _))
  | v =>
    let i ← (k.index? : Option _)
    let bs ← ((← get).heap.bytes? v : Option _)
    push (.int (← (bs[i]? : Option _)).toNat)

/-- Whether there is an item at a position, or a value of a key. -/
def hasKey : Action Unit := do
  let k ← pop
  match ← pop with
  | .array ref =>
    let i ← (k.index? : Option _)
    let vs ← ((← get).heap.arrays[ref]? : Option _)
    push (.bool (decide (i < vs.length)))
  | .map ref =>
    let es ← ((← get).heap.maps[ref]? : Option _)
    push (.bool (es.lookup k).isSome)
  | v =>
    let i ← (k.index? : Option _)
    let bs ← ((← get).heap.bytes? v : Option _)
    push (.bool (decide (i < bs.length)))

/-- The number of items, bytes or keys. -/
def size : Action Unit := do
  match ← pop with
  | .array ref => push (.int (← ((← get).heap.arrays[ref]? : Option _)).length)
  | .map ref => push (.int (← ((← get).heap.maps[ref]? : Option _)).length)
  | v => push (.int (← ((← get).heap.bytes? v : Option _)).length)

/-- Turns an array or a buffer round. -/
def reverseItems : Action Unit := do
  match ← pop with
  | .array ref => setArray ref (← ((← get).heap.arrays[ref]? : Option _)).reverse
  | .buffer ref => setBuffer ref (← ((← get).heap.buffers[ref]? : Option _)).reverse
  | _ => failure

/-- Adds a value at the end of an array. -/
def append : Action Unit := do
  let v ← pop
  let (ref, vs) ← popArray
  setArray ref (vs ++ [v])

/-- Takes the item at a position out of an array. -/
def remove : Action Unit := do
  let i ← popIndex
  let (ref, vs) ← popArray
  if i < vs.length then setArray ref (vs.eraseIdx i) else failure

/-- Takes the last item of an array. -/
def popItem : Action Unit := do
  let (ref, vs) ← popArray
  setArray ref vs.dropLast
  push (← (vs.getLast? : Option _))

/-- Makes an array of the items on the stack; the top is its first item. -/
def pack : Action Unit := do newArray (← popN (← popIndex))

/-- Puts the items of an array and their number on the stack. -/
def unpack : Action Unit := do
  let vs := (← popArray).2
  modify fun m => { m with stack := .int vs.length :: (vs ++ m.stack) }

/-- Joins two byte strings. -/
def cat : Action Unit := do
  let bs ← popBytes
  newBuffer ((← popBytes) ++ bs)

/-- Cuts a number of bytes out of a byte string. -/
def subStr : Action Unit := do
  let count ← popIndex
  let i ← popIndex
  let bs ← popBytes
  if i + count ≤ bs.length then newBuffer ((bs.drop i).take count) else failure

/-- A number of bytes from the start. -/
def left : Action Unit := do
  let count ← popIndex
  let bs ← popBytes
  if count ≤ bs.length then newBuffer (bs.take count) else failure

/-- A number of bytes from the end. -/
def right : Action Unit := do
  let count ← popIndex
  let bs ← popBytes
  if count ≤ bs.length then newBuffer (bs.drop (bs.length - count)) else failure

/-- Whether two values are equal. -/
def equal : Action Unit := do
  let w ← pop
  let v ← pop
  let h := (← get).heap
  push (.bool (← (h.same? h.arrays.length v w : Option _)))

/-- Changes the representation of the top item to the kind that a byte names. -/
def convert (kind : UInt8) : Action Unit := do
  if kind = ItemType.byteString.byte then push (.bytes (← popBytes))
  else if kind = ItemType.buffer.byte then newBuffer (← popBytes)
  else if kind = ItemType.boolean.byte then push (.bool (← pop).isTrue)
  else push (← pop)

end Action

open NeoScript.Machine.Action in
/-- **What an instruction does to the operands.** -/
def action (o : Opcode) (operand : Bytes) : Action Unit :=
  match o with
  | .pushInt _ => push (.int (Bytes.toInt operand))
  | .pushBool b => push (.bool b)
  | .pushNull => push .null
  | .pushData _ => push (.bytes operand)
  | .pushMinusOne => push (.int (-1))
  | .push n => push (.int n.val)
  | .nop => pure ()
  | .assert => do if (← pop).isTrue then pure () else failure
  | .drop => do let _ ← pop
  | .nip => do
    let v ← pop
    let _ ← pop
    push v
  | .dup => copy 0
  | .dupBelow => copy 1
  | .pick => do copy (← popIndex)
  | .swap => reorder 2 List.reverse
  | .rot => reorder 3 fun vs => vs.drop 2 ++ vs.take 2
  | .reverse3 => reorder 3 List.reverse
  | .reverse4 => reorder 4 List.reverse
  | .reverseN => do reorder (← popIndex) List.reverse
  | .sign => unary Int.sign
  | .abs => unary fun a => a.natAbs
  | .negate => unary fun a => -a
  | .inc => unary fun a => a + 1
  | .dec => unary fun a => a - 1
  | .not => do push (.bool !(← pop).isTrue)
  | .add => arithmetic fun a b => a + b
  | .sub => arithmetic fun a b => a - b
  | .mul => arithmetic fun a b => a * b
  | .div => division Int.tdiv
  | .mod => division Int.tmod
  | .min => arithmetic min
  | .max => arithmetic max
  | .lt => comparison fun a b => a < b
  | .le => comparison fun a b => a ≤ b
  | .gt => comparison fun a b => b < a
  | .ge => comparison fun a b => b ≤ a
  | .numEqual => comparison fun a b => a == b
  | .numNotEqual => comparison fun a b => a != b
  | .boolAnd => comparison fun a b => a != 0 && b != 0
  | .boolOr => comparison fun a b => a != 0 || b != 0
  | .equal => equal
  | .isNull => do push (.bool ((← pop) == .null))
  | .newArray0 => newArray []
  | .newArray => do newArray (List.replicate (← popIndex) .null)
  | .newMap => newMap
  | .pack => pack
  | .unpack => unpack
  | .size => size
  | .pickItem => pickItem
  | .setItem => setItem
  | .hasKey => hasKey
  | .append => append
  | .remove => remove
  | .popItem => popItem
  | .reverseItems => reverseItems
  | .cat => cat
  | .subStr => subStr
  | .left => left
  | .right => right
  | .convert => do convert (← (operand.head? : Option _))
  | _ => failure

/-- Whether the opcode only works on operands. -/
def onOperands : Opcode → Bool
  | .load _ _ | .store _ _ | .initStatic | .initSlot | .jump _ _ | .call _ | .ret => false
  | _ => true

/-- The operands after an instruction that only works on them; none if the machine faults. -/
def perform (o : Opcode) (operand : Bytes) (m : Operands) : Option Operands := ((action o operand).run m).map Prod.snd

lemma perform_of_run {o : Opcode} {operand : Bytes} {m m' : Operands} (h : (action o operand).run m = some ((), m')) :
    perform o operand m = some m' := congrArg (Option.map Prod.snd) h

/-- A comparison that decides a jump. -/
def Action.compare (f : Int → Int → Bool) : Action Bool := do
  let b ← popInt
  let a ← popInt
  return f a b

open NeoScript.Machine.Action in
/-- Whether a jump is taken. -/
def verdict : JumpTest → Action Bool
  | .always => pure true
  | .ifTrue => do return (← pop).isTrue
  | .ifFalse => do return !(← pop).isTrue
  | .eq => compare fun a b => a == b
  | .ne => compare fun a b => a != b
  | .gt => compare fun a b => b < a
  | .ge => compare fun a b => b ≤ a
  | .lt => compare fun a b => a < b
  | .le => compare fun a b => a ≤ b

namespace Action

variable {S : List Value} {h : Heap} {v : Value} {bs : Bytes} {vs : List Value}

@[simp] lemma run_pop : pop.run ⟨v :: S, h⟩ = some (v, ⟨S, h⟩) := rfl

@[simp] lemma run_push (v : Value) (m : Operands) : (push v).run m = some ((), ⟨v :: m.stack, m.heap⟩) := rfl

@[simp] lemma run_popInt (a : Int) : popInt.run ⟨.int a :: S, h⟩ = some (a, ⟨S, h⟩) := rfl

@[simp] lemma run_popIndex (n : Nat) : popIndex.run ⟨.int n :: S, h⟩ = some (n, ⟨S, h⟩) := rfl

/-- A value that counts as a number is taken off the stack as that number. -/
lemma run_popInt_of {a : Int} (hv : v.int? = some a) (S : List Value) (h : Heap) :
    popInt.run ⟨v :: S, h⟩ = some (a, ⟨S, h⟩) := by
  simp [popInt, hv]

lemma run_popBytes (hv : h.bytes? v = some bs) : popBytes.run ⟨v :: S, h⟩ = some (bs, ⟨S, h⟩) := by
  simp [popBytes, hv]

lemma run_popArray {ref : Nat} (hr : h.arrays[ref]? = some vs) :
    popArray.run ⟨.array ref :: S, h⟩ = some ((ref, vs), ⟨S, h⟩) := by
  simp [popArray, hr]

@[simp] lemma run_popN (vs S : List Value) (h : Heap) : (popN vs.length).run ⟨vs ++ S, h⟩ = some (vs, ⟨S, h⟩) := by
  change (if _ then _ else _) = _
  simp

lemma run_reorder (count : Nat) (f : List Value → List Value) (m : Operands) : (reorder count f).run m =
    if count ≤ m.stack.length then some ((), ⟨f (m.stack.take count) ++ m.stack.drop count, m.heap⟩) else none := by
  unfold reorder
  rfl

@[simp] lemma run_newArray (vs : List Value) (m : Operands) :
    (newArray vs).run m = some ((), ⟨.array m.heap.arrays.length :: m.stack, m.heap.addArray vs⟩) := rfl

@[simp] lemma run_newBuffer (bs : Bytes) (m : Operands) :
    (newBuffer bs).run m = some ((), ⟨.buffer m.heap.buffers.length :: m.stack, m.heap.addBuffer bs⟩) := rfl

@[simp] lemma run_setArray (ref : Nat) (vs : List Value) (m : Operands) :
    (setArray ref vs).run m = some ((), ⟨m.stack, m.heap.setArray ref vs⟩) := rfl

@[simp] lemma run_setBuffer (ref : Nat) (bs : Bytes) (m : Operands) :
    (setBuffer ref bs).run m = some ((), ⟨m.stack, m.heap.setBuffer ref bs⟩) := rfl

@[simp] lemma run_setMap (ref : Nat) (es : Entries) (m : Operands) :
    (setMap ref es).run m = some ((), ⟨m.stack, m.heap.setMap ref es⟩) := rfl

end Action

/-! ### Slots -/

/-- The slots of a method that was called. -/
structure Activation where
  locals : List Value := []
  arguments : List Value := []

/-- All that the machine holds, except for the methods that wait for others. -/
structure State extends Operands where
  statics : List Value := []
  activation : Activation := {}

namespace State

/-- The slots of a family. -/
def slots (s : State) : SlotKind → List Value
  | .static => s.statics
  | .frame => s.activation.locals
  | .argument => s.activation.arguments

/-- The state with other slots of a family. -/
def setSlots (s : State) (kind : SlotKind) (vs : List Value) : State :=
  match kind with
  | .static => { s with statics := vs }
  | .frame => { s with activation := { s.activation with locals := vs } }
  | .argument => { s with activation := { s.activation with arguments := vs } }

end State

/-- The slot that an instruction names. -/
def slotOf (slot : Option (Fin 7)) (operand : Bytes) : Option Nat :=
  match slot with
  | some i => some i.val
  | none => operand.head?.map UInt8.toNat

/-- What an instruction without control transfer does; there is no result if the machine faults. -/
def execute (i : Instruction) (s : State) : Option State :=
  match i.opcode with
  | .load kind slot => do
    let n ← slotOf slot i.operand
    let v ← (s.slots kind)[n]?
    return { s with stack := v :: s.stack }
  | .store kind slot => do
    let n ← slotOf slot i.operand
    let (v, m) ← Action.pop.run s.toOperands
    if n < (s.slots kind).length then
      return { s.setSlots kind ((s.slots kind).set n v) with toOperands := m }
    else none
  | .initStatic => do
    let count ← i.operand[0]?
    return s.setSlots .static (List.replicate count.toNat .null)
  | .initSlot => do
    let locals ← i.operand[0]?
    let arguments ← i.operand[1]?
    let (vs, m) ← (Action.popN arguments.toNat).run s.toOperands
    return { s with
      toOperands := m
      activation := ⟨List.replicate locals.toNat .null, s.activation.arguments ++ vs⟩ }
  | o => do return { s with toOperands := ← perform o i.operand s.toOperands }

/-! ### Running code -/

/-- A method that waits for another to return. -/
structure Caller where
  resume : Handle
  activation : Activation

/-- The machine in the middle of a run. -/
structure Config where
  pc : Handle
  state : State
  callers : List Caller := []

/-- The instruction at `pc` and the handle behind it, in code behind which comes `x`. -/
def fetch : (code : Code) → (x pc : Handle) → Option (Instruction × Handle)
  | [], _, _ => none
  | (h, i) :: code, x, pc => if h = pc then some (i, entry code x) else fetch code x pc

/-- The instruction that a control transfer leads to. -/
def destination? : Target → Option Handle
  | .code d => some d
  | _ => none

/-- Carries out an instruction, behind which comes `next`. -/
def advance (i : Instruction) (next : Handle) (c : Config) : Option Config :=
  match i.opcode with
  | .jump test _ => do
    let (taken, m) ← (verdict test).run c.state.toOperands
    let pc ← if taken then destination? i.target else some next
    return { c with pc, state := { c.state with toOperands := m } }
  | .call _ => do
    let pc ← destination? i.target
    return { pc, state := { c.state with activation := {} }, callers := ⟨next, c.state.activation⟩ :: c.callers }
  | .ret =>
    match c.callers with
    | caller :: callers =>
      some { pc := caller.resume, state := { c.state with activation := caller.activation }, callers }
    | [] => none
  | _ => do return { c with pc := next, state := ← execute i c.state }

/-- **One step of a run** in code behind which comes `x`. There is none outside of the code, and none if the machine
faults. -/
def step (code : Code) (x : Handle) (c : Config) : Option Config := do
  let (i, next) ← fetch code x c.pc
  advance i next c

/-- The machine comes from one configuration to another. -/
def Reaches (code : Code) (x : Handle) : Config → Config → Prop := Relation.ReflTransGen fun c d => step code x c = some d

/-- The machine comes to an instruction that it refuses. -/
def Faults (code : Code) (x : Handle) (c : Config) : Prop :=
  ∃ d, Reaches code x c d ∧ d.pc ∈ code.map Prod.fst ∧ step code x d = none

end NeoScript.Machine
