import NeoScript.Generator.Emit

/-!
# Removing code

When instructions are removed, everything that referred to them has to refer to something else: to the
instruction that follows, if there is one, and otherwise to whatever is emitted next. A method that loses its
first instruction and has no other loses its entry, and the calls of it wait again.

Going back to a checkpoint is the removal of everything emitted since.
-/

namespace NeoScript.Generator

/-- The instructions that a removal takes away, and the one that follows them. -/
structure Gap where
  removed : Std.HashSet Handle
  successor : Option Handle

/-- The entry that a method gets when its first instruction is removed: the instruction that follows, unless
another method starts there. -/
def Gap.newEntry (gap : Gap) (g : Generator) : Option Handle :=
  gap.successor.filter fun h => !(g.entries.entries.any fun e => e.2 == h)

/-- The methods that lose their entry, by the instruction where they started. Of two methods that started with
the same instruction the later one counts. -/
def Gap.orphans (gap : Gap) (g : Generator) : Table Handle String :=
  match gap.newEntry g with
  | some _ => {}
  | none => .ofList ((g.entries.entries.filter fun e => gap.removed.contains e.2).map fun e => (e.2, e.1))

/-- Forgets the links and the waiting calls inside the gap. -/
def forget (g : Generator) (gap : Gap) : Generator :=
  { g with
    pending := g.pending.filter fun link => link.source?.all fun h => !gap.removed.contains h
    waiting := g.waiting.map fun calls => calls.filter fun h => !gap.removed.contains h }

/-- Moves the entries inside the gap, or drops them. -/
def moveEntries (g : Generator) (gap : Gap) : Generator :=
  let entry := gap.newEntry g
  { g with entries := g.entries.filterMap fun _ h => if gap.removed.contains h then entry else some h }

/-- If nothing follows the gap, the open method starts with whatever is emitted next. -/
def reopenEntry (g : Generator) (gap : Gap) (orphans : Table Handle String) : Generator :=
  match g.frame with
  | some frame =>
    if gap.successor.isNone && orphans.entries.any (fun e => e.2 == frame.name) then
      g.defer (.entry frame.name)
    else g
  | none => g

/-- The link that replaces the reference from `source`, whose target is `target`, to `stale`. -/
def linkFor (source : Handle) (target : Target) (stale : Handle) : Link :=
  match target with
  | .handlers except _ => if except = some stale then .handler source else .finalizer source
  | _ => .jump source

/-- Moves one reference out of the gap. -/
def moveReference (g : Generator) (gap : Gap) (source stale : Handle) : Generator :=
  match g.code.target? source with
  | none => g
  | some target =>
    let g := { g with code := g.code.setTarget source (target.retarget stale gap.successor) }
    if gap.successor.isNone then g.defer (linkFor source target stale) else g

/-- The method whose call `source` waits again, if its target is the lost entry of one. -/
def orphanedCall? (g : Generator) (orphans : Table Handle String) (source : Handle) : Option String :=
  match g.code.instruction? source with
  | some i =>
    match i.opcode.isCall, i.target with
    | true, .code stale => orphans.get? stale
    | _, _ => none
  | none => none

/-- Records a call of a method that has no body. -/
def await (g : Generator) (method : String) (call : Handle) : Generator :=
  { g with waiting := g.waiting.insert method ((g.waiting.get? method).getD [] ++ [call]) }

/-- Moves every reference of one control transfer out of the gap. -/
def moveReferences (g : Generator) (gap : Gap) (orphans : Table Handle String) (source : Handle) : Generator :=
  match g.orphanedCall? orphans source with
  | some method => { g with code := g.code.setTarget source .unresolved }.await method source
  | none =>
    let stale := ((g.code.target? source).map Target.handles).getD [] |>.filter gap.removed.contains
    stale.foldl (fun g h => g.moveReference gap source h) g

/-- Mends everything that refers to removed instructions. -/
def relink (g : Generator) (gap : Gap) : Generator :=
  let g := g.forget gap
  let orphans := gap.orphans g
  let g := (g.moveEntries gap).reopenEntry gap orphans
  let sources := g.code.linked
  sources.foldl (fun g source => g.moveReferences gap orphans source) g

/-- Removes the instructions that lie in a span. -/
def removeSpan (g : Generator) (start stop : Nat) : Generator :=
  let successor := g.code.atStart? (stop + 1)
  let (code, removed) := g.code.removeSpan start stop
  let g := { g with code }
  if removed.isEmpty then g
  else (g.note (.remove start stop removed.length)).relink ⟨.ofList removed, successor⟩

/-- Removes a live instruction. -/
def removeInstruction (g : Generator) (h : Handle) : Generator :=
  match g.code.start? h, g.code.last? h with
  | some start, some stop => g.removeSpan start stop
  | _, _ => g

/-- The last instruction, if nothing is linked to it or waits for the one after it. -/
def detachable? (g : Generator) : Option Handle :=
  g.code.back?.filter fun last =>
    g.pending.isEmpty &&
      g.code.linked.all fun h => !(((g.code.target? h).map Target.handles).getD []).contains last

/-! ### Going back -/

/-- The present state, to come back to. -/
def checkpoint (g : Generator) : Checkpoint where
  address := g.code.size
  stack := g.stack.checkpoint
  frame := g.frame
  scopes := g.scopes.length
  branches := g.branches.length
  loops := g.loops.length
  elseGuards := g.elseGuards.length
  tries := g.tries.length
  tokens := g.tokens.length

/-- The outermost `count` of a list that has the innermost first. -/
def outermost {α : Type} (count : Nat) (l : List α) : List α := l.drop (l.length - count)

/-- Forgets the pending entry of the open method, unless that method was already open at the checkpoint. -/
def abandonEntry (g : Generator) (c : Checkpoint) : Generator :=
  match g.frame with
  | some frame =>
    if c.frame.any fun saved => saved.name == frame.name then g
    else { g with pending := g.pending.filter fun link => link != .entry frame.name }
  | none => g

/-- Discards everything emitted since the checkpoint. -/
def rollback (g : Generator) (c : Checkpoint) : Generator :=
  let (code, removed) := g.code.truncate c.address
  let g := { g with code }.note (.rollback c.address)
  let g := (g.relink ⟨.ofList removed, none⟩).abandonEntry c
  { g with
    stack := (g.stack.restore c.address g.code).rollback c.stack
    frame := c.frame
    scopes := outermost c.scopes g.scopes
    branches := outermost c.branches g.branches
    loops := outermost c.loops g.loops
    elseGuards := outermost c.elseGuards g.elseGuards
    tries := outermost c.tries g.tries
    tokens := g.tokens.take c.tokens }

end NeoScript.Generator
