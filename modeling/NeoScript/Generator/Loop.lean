import NeoScript.Generator.Removal

/-!
# Loops

A loop starts with a jump to its test, which stands behind the body, so each round makes one jump:

    JMP test
    body
    test
    JMPIF body
    natural exit

The test of a conditional loop is emitted before its body and moved behind it when the body is complete. If the
loop has an `else` part and is left early somewhere, each exit pushes a flag that tells the two kinds of exits
apart; otherwise nobody tests the flags, and they are removed.
-/

namespace NeoScript.Generator

/-- Opens a loop whose first jump is `startJump`. -/
def openLoop (g : Generator) (kind : LoopKind) (startJump : Handle) : Generator :=
  let loop := { kind, startJump, tryDepth := g.tries.length, stack := g.stack.items }
  { g.pushScope with loops := loop :: g.loops }

/-- Changes the innermost loop. -/
def modifyLoop (g : Generator) (f : OpenLoop → OpenLoop) : Generator :=
  { g with loops :=
      match g.loops with
      | [] => []
      | loop :: outer => f loop :: outer }

/-- Takes the innermost loop off the open ones. -/
def popLoop (g : Generator) : Generator := { g with loops := g.loops.tail }

/-! ### Leaving a loop -/

/-- Removes the flags of the exits of a loop. -/
def removeFlags (g : Generator) (breaks : List Break) : Generator :=
  breaks.foldl (fun g b => g.removeInstruction b.flag) g

/-- Emits the natural exit and links the others. -/
def finishLoop (g : Generator) (loop : OpenLoop) (hasElse : Bool) : Generator :=
  let kept := loop.kind.kept
  let exits := loop.breaks.map Break.jump
  let g := g.popScope.restoreStack loop.stack
  let g :=
    if hasElse && !loop.breaks.isEmpty then
      let g := ((g.dropN kept).op (.pushBool false) 0 (some .bool)).linkAll exits
      let guardJump := g.next
      let g := (g.emitJump .ifTrue).track guardJump 1 none
      { g with elseGuards := some guardJump :: g.elseGuards }
    else
      let g := ((g.removeFlags loop.breaks).dropN kept).linkAll exits
      if hasElse then { g with elseGuards := none :: g.elseGuards } else g
  g.restoreStack (loop.stack.drop kept)

/-- Closes the `else` part of a loop. -/
def endLoopElse : Emission Unit := do
  let g ← get
  match g.elseGuards with
  | [] => refuse (.unbalanced .loopElse)
  | guardJump :: outer =>
    modify fun g =>
      let g := { g with elseGuards := outer }
      match guardJump with
      | some jump => g.linkNext jump
      | none => g

/-- Leaves protected blocks; each but the last leads to the instruction that leaves the next one. -/
def leaveTries (g : Generator) : Nat → Generator
  | 0 => g
  | levels + 1 =>
    let leave := g.next
    ((g.emitOpen (.tryLeave false)).linkNext leave).leaveTries levels

/-- A jump out of `levels` protected blocks, with its handle. -/
def exitJump (g : Generator) (levels : Nat) : Generator × Handle :=
  let g := g.leaveTries (levels - 1)
  let jump := g.next
  (g.emitOpen (if levels = 0 then .jump .always false else .tryLeave false), jump)

/-- The innermost loop and the number of protected blocks between it and here. A block that was open when the
loop began must still be open. -/
def innerLoop (exit : LoopExit) : Emission (OpenLoop × Nat) := do
  let g ← get
  match g.loops with
  | [] => refuse (.outsideLoop exit)
  | loop :: _ =>
    if g.tries.length < loop.tryDepth then throw .misuse
    else return (loop, g.tries.length - loop.tryDepth)

/-- Leaves the innermost loop. -/
def breakLoop : Emission Unit := do
  let (loop, levels) ← innerLoop .breakLoop
  modify fun g =>
    let saved := g.stack.items
    let g := g.dropN loop.kind.kept
    let flag := g.next
    let (g, jump) := (g.op (.pushBool true) 0 (some .bool)).exitJump levels
    (g.restoreStack saved).modifyLoop fun loop => { loop with breaks := loop.breaks ++ [{ flag, jump }] }

/-- Goes on with the next round of the innermost loop. -/
def continueLoop : Emission Unit := do
  let (_, levels) ← innerLoop .continueLoop
  modify fun g =>
    let (g, jump) := g.exitJump levels
    g.modifyLoop fun loop => { loop with continues := loop.continues ++ [jump] }

/-! ### Conditional loops -/

/-- Opens a conditional loop; its test comes next. -/
def beginWhile (g : Generator) : Generator :=
  let jump := g.next
  ((g.emitJump .always).linkNext jump).openLoop (.conditional none) jump

/-- Takes the result of the test and opens the body. -/
def beginWhileBody : Emission Unit := do
  match (← get).loops.head?.map OpenLoop.kind with
  | some (.conditional none) =>
    modify fun g =>
      let jump := g.next
      let g := ((g.emitJump .ifTrue).track jump 1 none).linkNext jump
      g.modifyLoop fun loop => { loop with kind := .conditional (some jump) }
  | _ => refuse (.unbalanced .whileLoop)

/-- Moves the test, from its first instruction to the jump that closes it, behind the body. -/
def moveTest (g : Generator) (first last : Handle) : Generator :=
  let start := (g.code.start? first).getD 0
  let stop := (g.code.last? last).getD 0
  let (code, moved) := g.code.relocate start stop
  let g := { g with code }
  match moved with
  | some newStart => g.note (.relocate start stop newStart)
  | none => g

/-- Joins the test and the body. Without a body the test is repeated; otherwise everything that waits for the
end of the body goes to the test, which is moved there. -/
def closeTest (g : Generator) (test bodyJump : Handle) : Generator :=
  if g.pending.contains (.jump bodyJump) then
    let pending := g.pending.filter fun link => decide (link ≠ .jump bodyJump)
    { g with pending }.setTarget bodyJump (.code test)
  else (g.resolveAll test).moveTest test bodyJump

/-- Closes a conditional loop. -/
def endWhile (hasElse : Bool) : Emission Unit := do
  let loop? := (← get).loops.head?
  modify popLoop
  match loop? with
  | none => refuse (.unbalanced .whileLoop)
  | some loop =>
    match loop.kind, (← get).code.target? loop.startJump with
    | .conditional (some bodyJump), some (.code test) =>
      modify fun g => ((g.closeTest test bodyJump).pointAll loop.continues test).finishLoop loop hasElse
    | _, _ => refuse (.unbalanced .whileLoop)

/-! ### Loops over a collection -/

/-- Opens a loop that drives the iterator on top. -/
def beginIterated (g : Generator) (item : ValueType) : Generator :=
  let jump := g.next
  let g := g.emitJump .always
  let body := g.next
  (((g.emit .dup).callService .iteratorValue 0 none).openLoop (.iterated body) jump).pushType item

/-- Opens a loop that walks the collection on top by position. -/
def beginIndexed (g : Generator) (collection : ValueType) : Generator :=
  let g := g.op (.push 0) 0 (some .nonNegInt)
  let jump := g.next
  let g := g.emitJump .always
  let body := g.next
  let pickItem : Snippet :=
    if collection = .str then .ops [.push 1, .subStr] ++ .convert .byteString else .op .pickItem
  ((g.emitSnippet (.ops [.dupBelow, .dupBelow] ++ pickItem)).openLoop (.indexed body) jump).pushType collection.element

/-- Opens a loop over the collection on top and leaves the first item for the loop variable. A mapping is walked
by its keys. -/
def beginFor : Emission Unit := do
  match (← get).stack.peek 0 with
  | .dict key _ => modify fun g => (g.op .keys 1 (some (.list key))).beginIndexed (.list key)
  | .iterator item => modify fun g => g.beginIterated item
  | collection =>
    if collection.isSequence || collection == .any then modify fun g => g.beginIndexed collection
    else refuse (.unsupported "for" collection)

/-- Advances the index and compares it with the size of the collection. -/
def advanceIndex (g : Generator) (startJump : Handle) : Generator :=
  let g := (((g.op .inc 1 (some .nonNegInt)).linkNext startJump).dup.pushIndex 2).op .pick 1 none
  ((g.pushType .any).op .size 1 (some .nonNegInt)).op .lt 2 (some .bool)

/-- Advances the iterator. -/
def advanceIterator (g : Generator) (startJump : Handle) : Generator :=
  (g.linkNext startJump).dup.callService .iteratorNext 1 (some .bool)

/-- Closes a loop over a collection. -/
def closeFor (g : Generator) (loop : OpenLoop) (body : Handle) (hasElse : Bool)
    (advance : Generator → Handle → Generator) : Generator :=
  let g := advance ((g.restoreStack loop.stack).linkAll loop.continues) loop.startJump
  let jump := g.next
  ((g.emitTarget (.jump .ifTrue false) (.code body)).track jump 1 none).finishLoop loop hasElse

/-- Closes a loop over a collection: advances it and jumps back. -/
def endFor (hasElse : Bool) : Emission Unit := do
  let loop? := (← get).loops.head?
  modify popLoop
  match loop? with
  | none => refuse (.unbalanced .forLoop)
  | some loop =>
    match loop.kind with
    | .indexed body => modify fun g => g.closeFor loop body hasElse advanceIndex
    | .iterated body => modify fun g => g.closeFor loop body hasElse advanceIterator
    | .conditional _ => refuse (.unbalanced .forLoop)

end NeoScript.Generator
