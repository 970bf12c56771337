import NeoScript.Generator.Emit

/-!
# Conditional statements

The first body is skipped by a jump that takes the condition. Both bodies start with the stack that this jump
leaves, and after the statement each place of the stack has the join of the two types that it can have.
-/

namespace NeoScript.Generator

/-- Takes the condition and opens the first body. -/
def beginIf (g : Generator) : Generator :=
  let jump := g.next
  let g := (g.emitJump .ifFalse).track jump 1 none
  { g.pushScope with branches := { jump } :: g.branches }

/-- The stack that the jump over the first body leaves. -/
def stackAfter (g : Generator) (jump : Handle) : List ValueType :=
  g.stack.snapshot ((g.code.start? jump).getD 0) g.code

/-- Takes the innermost conditional statement off the open ones. -/
def popBranch (g : Generator) : Generator := { g with branches := g.branches.tail }

/-- Closes the first body and opens the second one. -/
def beginElse : Emission Unit := do
  let branch? := (← get).branches.head?
  modify popBranch
  match branch?.filter fun b => b.other.isNone with
  | none => refuse (.unbalanced .branch)
  | some branch =>
    modify fun g =>
      let thenStack := g.stack.items
      let elseJump := g.next
      let g := (g.emitJump .always).linkNext branch.jump
      let g := (g.restoreStack (g.stackAfter branch.jump)).clearScope
      { g with branches := { branch with other := some (elseJump, thenStack) } :: g.branches }

/-- Closes the statement. -/
def endIf : Emission Unit := do
  let branch? := (← get).branches.head?
  modify popBranch
  match branch? with
  | none => refuse (.unbalanced .branch)
  | some branch =>
    modify fun g =>
      let g := g.linkNext ((branch.other.map Prod.fst).getD branch.jump)
      let other := (branch.other.map Prod.snd).getD (g.stackAfter branch.jump)
      (g.restoreStack (ValueType.joinStacks g.stack.items other)).popScope

end NeoScript.Generator
