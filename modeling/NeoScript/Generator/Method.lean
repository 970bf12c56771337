import NeoScript.Generator.Emit

/-!
# Methods

A method starts with the instruction that reserves its slots, if it has any, and ends with a return. A
constructor returns its first argument, the new object. Returning from inside a loop drops what the loops keep on
the stack.
-/

namespace NeoScript.Generator

-- Zero is read alike, whatever other instances are in scope.
attribute [local instance (high)] Zero.ofOfNat0

/-- A number of slots, if it fits one byte. -/
def slotCount (count : Nat) (cause : CompileError) : Except CompileError UInt8 :=
  if count ≤ 255 then .ok count.toUInt8 else .error cause

/-- The instruction that reserves the slots of a method, if it needs any. -/
def reservation? (g : Generator) (name : String) : Option Method → Except CompileError (Option Instruction)
  | none =>
    let count := g.statics.length
    if count = 0 then .ok none else .ok (some { opcode := .initStatic, operand := [count.toUInt8] })
  | some method =>
    if method.argSlots = 0 ∧ method.locals.size = 0 then .ok none
    else do
      let locals ← slotCount method.locals.size (.tooManyLocals name)
      let args ← slotCount method.argSlots (.tooManyArguments name)
      return some { opcode := .initSlot, operand := [locals, args] }

/-- The declaration of a method; the one that initializes static fields needs none. -/
def declaration (g : Generator) (name : String) : Except CompileError (Option Method) :=
  if name = initializer then .ok none
  else
    match g.symbols.methods.get? name with
    | some method => .ok (some method)
    | none => .error (.unknownSymbol name)

/-- Opens a method: the next instruction is its entry. -/
def openMethod (name : String) : Emission Unit := do
  let g ← get
  if g.frame.isSome then refuse (.unbalanced .method)
  let _ ← Emission.ofExcept g.staticSlots
  let method ← Emission.ofExcept (g.declaration name)
  modify fun g => (((g.restoreStack []).pushScope).defer (.entry name)).note (.methodBegin name g.code.size)
  match ← Emission.ofExcept (g.reservation? name method) with
  | some i => modify fun g => g.append i
  | none => pure ()
  modify fun g => { g with frame := some { name, method } }

/-- Whether the code of a method already ends with a return that nothing jumps behind. -/
def endsWithReturn (g : Generator) (name : String) : Bool :=
  g.pending.isEmpty && g.isGenerated name &&
    (g.code.back?.bind g.code.instruction?).any fun i => i.opcode == .ret

/-- Whether a construct other than a method is open. -/
def hasOpenConstruct (g : Generator) : Bool :=
  !(g.branches.isEmpty && g.loops.isEmpty && g.elseGuards.isEmpty && g.tries.isEmpty)

/-- Closes the open method, with a return unless its code ends with one. -/
def closeMethod : Emission Unit := do
  let g ← get
  match g.hasOpenConstruct, g.frame with
  | false, some frame =>
    modify fun g =>
      let g := { g with frame := none }
      let g :=
        if g.endsWithReturn frame.name then g
        else (if frame.isInit then g.emit (.load .argument (some 0)) else g).emit .ret
      let g := (g.restoreStack []).popScope
      g.note (.methodEnd frame.name (g.code.size - 1))
  | _, _ => refuse (.unbalanced .method)

/-- Returns from the open method, with the value on top if there is one. -/
def returnFrom (hasValue : Bool) : Emission Unit := do
  match (← get).frame with
  | none => refuse (.unbalanced .method)
  | some frame =>
    modify fun g =>
      let kept := (g.loops.map fun loop => loop.kind.kept).sum
      let saved := if hasValue then g.stack.items.tail else g.stack.items
      let g := if hasValue then g.nipN kept else g.dropN kept
      let g :=
        if frame.isInit && !hasValue then g.op (.load .argument (some 0)) 0 (some .any) else g
      (g.emit .ret).restoreStack saved

/-- Raises the exception on top. -/
def raise (g : Generator) : Generator :=
  let saved := g.stack.items.tail
  (g.emit .throw).restoreStack saved

/-- Fails unless the condition on top, or below a message, holds. -/
def assert (g : Generator) (hasMessage : Bool) : Generator :=
  if hasMessage then g.op .assertMsg 2 none else g.op .assert 1 none

end NeoScript.Generator
