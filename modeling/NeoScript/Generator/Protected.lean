import NeoScript.Generator.Binding

/-!
# Protected blocks

A protected block has a body, at most one handler and at most one finalizer. Each part but the finalizer ends
with an instruction that leaves it for the place behind the block. Every part starts with the stack that the
block began with; a handler finds the exception on top of it.
-/

namespace NeoScript.Generator

/-- Opens the body of a protected block. -/
def beginTry (g : Generator) : Generator :=
  let enter := g.next
  let g := g.emitTarget (.tryEnter false) (.handlers none none)
  { g with tries := { enter, stack := g.stack.items } :: g.tries }

/-- Takes the innermost protected block off the open ones and goes on with it if its stage is one of the given,
and refuses otherwise. -/
def popTry (stages : List TryStage) : Emission OpenTry := do
  let block? := (← get).tries.head?
  modify fun g => { g with tries := g.tries.tail }
  Emission.ofOption (.unbalanced .protectedBlock) (block?.filter fun block => stages.contains block.stage)

/-- Leaves a part of a protected block, with the block that remembers it. -/
def leavePart (g : Generator) (block : OpenTry) : Generator × OpenTry :=
  let leave := g.next
  (g.emitOpen (.tryLeave false), { block with leaves := block.leaves ++ [leave] })

/-- Closes the body and opens the handler. The exception goes into the variable, or is dropped. -/
def beginHandler (name : Option String) : Emission Unit := do
  let block ← popTry [.body]
  modify fun g =>
    let (g, block) := g.leavePart block
    let g := (g.defer (.handler block.enter)).restoreStack block.stack
    { g with
      tries := { block with stage := .handler } :: g.tries
      stack := g.stack.push none .any }
  match name with
  | some name => store name
  | none => modify drop

/-- Closes the body or the handler. Without a finalizer this ends the block. -/
def endTry (hasFinalizer : Bool) : Emission Unit := do
  let block ← popTry [.body, .handler]
  modify fun g =>
    let (g, block) := g.leavePart block
    let g := g.restoreStack block.stack
    if hasFinalizer then
      { g.defer (.finalizer block.enter) with tries := { block with stage := .finalizer } :: g.tries }
    else g.linkAll block.leaves

/-- Closes the finalizer and with it the block. -/
def endFinalizer : Emission Unit := do
  let block ← popTry [.finalizer]
  modify fun g => ((g.emit .finallyLeave).linkAll block.leaves).restoreStack block.stack

end NeoScript.Generator
