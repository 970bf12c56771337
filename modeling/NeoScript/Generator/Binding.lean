import NeoScript.Generator.Constant
import NeoScript.Generator.Removal

/-!
# Variables

A name is looked up among the locals of the open method, then among its arguments, then among the globals. What
it is bound to says how it is loaded and stored. A value that is kept in the storage of the contract is
serialized by the standard library on its way in and out.
-/

namespace NeoScript.Generator

/-- What a name is bound to. -/
inductive Binding where
  | slot (kind : SlotKind) (index : Nat) (type : ValueType)
  /-- An item of the array that holds all arguments. -/
  | packed (index : Nat) (type : ValueType)
  /-- A constant that is put in the place of every load. -/
  | inlined (value : Literal)
  /-- A value in the storage of the contract. -/
  | stored (type : ValueType)
  deriving Repr

/-- The binding of a global. -/
def bindGlobal (g : Generator) (name : String) (narrowed : Option ValueType) (v : Variable) :
    Except CompileError Binding :=
  let type := narrowed.getD v.type
  match v.kind g.options, v.initial with
  | .inlined, some value => .ok (.inlined value)
  | .stored, _ => .ok (.stored type)
  | _, _ =>
    match g.statics.idxOf? name with
    | some slot => .ok (.slot .static slot type)
    | none => .error (.unknownSymbol name)

/-- The binding of a variable of the open method. -/
def bindFrame? (g : Generator) (name : String) (narrowed : Option ValueType) : Option Binding := do
  let method ← g.frame.bind Frame.method
  match method.locals.slot? name with
  | some (index, type) => return .slot .frame index (narrowed.getD type)
  | none =>
    let (index, type) ← method.args.slot? name
    let type := narrowed.getD type
    return if method.packsArgs then .packed index type else .slot .argument index type

/-- The binding of a name, with the type that the innermost region knows. -/
def bindingOf (g : Generator) (name : String) : Except CompileError Binding :=
  let narrowed := g.narrowed? name
  match g.bindFrame? name narrowed with
  | some binding => .ok binding
  | none =>
    match g.symbols.globals.get? name with
    | some v => g.bindGlobal name narrowed v
    | none => .error (.unknownSymbol name)

/-- The instruction that loads a slot. -/
def loadSlot (kind : SlotKind) (index : Nat) : Instruction where
  opcode := .loadOf kind index
  operand := if index < 7 then [] else Bytes.ofNat 1 index

/-- The instruction that stores into a slot. -/
def storeSlot (kind : SlotKind) (index : Nat) : Instruction where
  opcode := .storeOf kind index
  operand := if index < 7 then [] else Bytes.ofNat 1 index

/-- The key under which a global is stored. -/
def storageKey (g : Generator) (name : String) : Bytes := g.options.storageRoot ++ name.toUTF8.toList

/-- Pushes the array that holds all arguments. -/
def loadArguments (g : Generator) : Generator :=
  g.op (.load .argument (some 0)) 0 (some (.list .any))

/-- Pushes the value of a variable. -/
def load (name : String) : Emission Unit := do
  let g ← get
  match ← Emission.ofExcept (g.bindingOf name) with
  | .slot kind index type => modify fun g => (g.append (loadSlot kind index)).pushType type
  | .packed index type => modify fun g => (g.loadArguments.pushIndex index).op .pickItem 2 (some type)
  | .inlined value => literal value
  | .stored type =>
    pushData (g.storageKey name)
    modify fun g =>
      ((g.callService .storageReadOnlyContext 0 (some .any)).callService .storageGet 2 (some .bytes)).callToken
        .deserialize 1 (some type)

/-- Whether an instruction only pushes a constant. -/
def pushesConstant (i : Instruction) : Bool :=
  match i.opcode with
  | .pushInt _ | .pushBool _ | .pushData _ | .pushNull | .pushMinusOne | .push _ => true
  | _ => false

/-- Discards the top item. If the last instruction is what pushed it, a constant, and nothing is linked to that
instruction, then it is removed. -/
def discardTop (g : Generator) : Generator :=
  match g.detachable?.filter fun h => (g.code.instruction? h).any pushesConstant with
  | some last => (g.removeInstruction last).popTypes 1
  | none => g.drop

/-- Takes the top item into a variable. The value of an inlined global is known, so it is discarded. -/
def store (name : String) : Emission Unit := do
  let g ← get
  match ← Emission.ofExcept (g.bindingOf name) with
  | .slot kind index _ => modify fun g => (g.append (storeSlot kind index)).popTypes 1
  | .packed index _ => modify fun g => ((g.loadArguments.swap.pushIndex index).swap).op .setItem 3 none
  | .inlined _ => modify discardTop
  | .stored _ =>
    modify fun g => g.callToken .serialize 1 (some .bytes)
    pushData (g.storageKey name)
    modify fun g => (g.callService .storageContext 0 (some .any)).callService .storagePut 3 none

end NeoScript.Generator
