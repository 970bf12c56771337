import NeoScript.Contract.Builtin
import NeoScript.Generator.Removal
import NeoScript.Generator.Subscript

/-!
# Calls, objects and events

Arguments are pushed in the order in which they are written, and a callee finds its first argument on top, so a
call turns them round first. Where they travel in an array, they are turned round before they are packed, so
that the array has them in the order in which they are written.

A call of a method without body waits for the method's entry.
-/

namespace NeoScript.Generator

/-- The declaration of a method of the script. -/
def methodOf (g : Generator) (name : String) : Except CompileError Method :=
  match g.symbols.methods.get? name with
  | some method => .ok method
  | none => .error (.unknownSymbol name)

/-- Emits a call of a method. Without an entry at the time of the call, the call waits for one; a call that itself
becomes the entry of its method still waits for the next. -/
def emitCall (g : Generator) (name : String) : Generator :=
  match g.entries.get? name with
  | some entry => g.emitTarget (.call false) (.code entry)
  | none =>
    let call := g.next
    let g := g.emitOpen (.call false)
    if g.code.target? call = some .unresolved then g.await name call else g

/-- Calls a method of the script. -/
def callMethod (name : String) : Emission Unit := do
  let g ← get
  let method ← Emission.ofExcept (g.methodOf name)
  modify fun g =>
    let count := method.args.size
    let g := if method.packsArgs then g.packTop count else g.reverseTop count
    let g := (g.emitCall name).popTypes method.argSlots
    if method.returnsValue then g.pushType method.returns else g

/-! ### Builtins -/

/-- Goes on with the value, or stops with the fault. -/
def ofFault {α : Type} : Except Fault α → Emission α
  | .ok a => pure a
  | .error fault => throw fault

/-- Puts the body of a builtin in place. A body has no control transfers, and every opcode in it accepts its
operand. -/
def inlineBody : List Instruction → Emission Unit
  | [] => pure ()
  | i :: is =>
    if i.opcode.hasTarget || !Instruction.accepts i.opcode i.operand then throw .misuse
    else do
      modify fun g => g.append i
      inlineBody is

/-- Whether the index argument of a builtin is its last one and follows its collection. -/
def indexIsLast (b : Builtin) (a : IndexArgument) : Bool := a.index + 1 == b.argCount && a.collection < a.index

/-- Calls a builtin. -/
def callBuiltin (b : Builtin) : Emission Unit := do
  if let some a := b.indexArgument then
    if indexIsLast b a then fixNegativeIndex (a.index - a.collection) else refuse (.indexNotLast b.name)
  let g ← get
  let args := ((List.range b.argCount).map g.stack.peek).reverse
  let body ← ofFault (b.body args)
  let result ← ofFault (b.returns args)
  inlineBody body
  modify fun g =>
    let g := g.popTypes b.argCount
    if result = .none then g else g.pushType result

/-! ### Objects -/

/-- The constructor of a class, if it has one. Its arguments may not be packed. -/
def constructorOf (g : Generator) (className : String) (c : UserClass) :
    Except CompileError (Option (String × Method)) :=
  match c.init with
  | none => .ok none
  | some init => do
    let method ← g.methodOf init
    if method.packsArgs then .error (.packedConstructor className) else .ok (some (init, method))

/-- Makes an instance of a class and calls the constructor with the arguments on the stack. -/
def newObject (className : String) : Emission Unit := do
  let g ← get
  let c ← Emission.ofOption (.unknownSymbol className) (g.symbols.classes.get? className)
  let init ← Emission.ofExcept (g.constructorOf className c)
  modify fun g =>
    let args := (init.map fun e => e.2.args.size - 1).getD 0
    let g := ((g.reverseTop args).pushIndex c.fields.size).op .newArray 1 (some (.object className))
    match init with
    | some (name, _) => ((g.emitCall name).popTypes (args + 1)).pushType (.object className)
    | none => g

/-- The place and the type of a field of the object on top. -/
def fieldOf (g : Generator) (field : String) : Except CompileError (Nat × ValueType) :=
  match g.stack.peek 0 with
  | .object className =>
    match (g.symbols.classes.get? className).bind fun c => c.fields.slot? field with
    | some slot => .ok slot
    | none => .error (.unknownSymbol (className ++ "." ++ field))
  | t => .error (.unsupported ("." ++ field) t)

/-- Replaces the object on top by one of its fields. -/
def loadField (field : String) : Emission Unit := do
  let g ← get
  let (slot, type) ← Emission.ofExcept (g.fieldOf field)
  modify fun g => (g.pushIndex slot).op .pickItem 2 (some type)

/-- Stores the value below the object on top into one of its fields. -/
def storeField (field : String) : Emission Unit := do
  let g ← get
  let (slot, _) ← Emission.ofExcept (g.fieldOf field)
  modify fun g => ((g.swap.pushIndex slot).swap).op .setItem 3 none

/-! ### Events and other contracts -/

/-- Announces an event. -/
def announce (event : String) : Emission Unit := do
  let e ← Emission.ofOption (.unknownSymbol event) ((← get).symbols.events.get? event)
  modify fun g => g.packTop e.args.length
  pushData e.name.toUTF8.toList
  modify fun g => g.callService .notify 2 none

/-- Calls a method of another contract. The host always leaves a value, which is dropped if it means nothing. -/
def callContract (contract method : String) : Emission Unit := do
  let i ← Emission.ofOption (.unknownSymbol contract) ((← get).symbols.contracts.get? contract)
  let m ← Emission.ofOption (.unknownSymbol (contract ++ "." ++ method)) (i.methods.get? method)
  modify fun g => (g.packTop m.args.size).pushIndex CallFlags.all.bits.toNat
  pushData method.toUTF8.toList
  pushData i.hash.toList
  modify fun g =>
    let g := g.callService .contractCall 4 (some m.returns)
    if m.returnsValue then g else g.drop

end NeoScript.Generator
