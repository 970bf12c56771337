import NeoScript.CompiledUnit.Basic
import NeoScript.Generator.Removal

/-!
# Finishing a script

What still waits for an instruction goes to the end of the script, unreachable code is dropped, offsets that do
not fit are widened, and the bytes are written. Only a jump may go to the end: a method or a handler that
nothing follows is a misuse.
-/

namespace NeoScript.Generator

/-- The entries from which code can be reached: those of the public methods, and the initializer's. -/
def rootEntries (g : Generator) : List Handle :=
  (g.symbols.publicMethods ++ [initializer]).filterMap g.entries.get?

/-- Removes spans, the last one first, so that the addresses of the others stay. -/
def removeSpans (g : Generator) (spans : List (Nat × Nat)) : Generator :=
  spans.reverse.foldl (fun g span => g.removeSpan span.1 span.2) g

/-- Removes what cannot be reached, and says how many instructions that were. Without a public method nothing is
removed. -/
def removeDeadCode (g : Generator) : Generator × Nat :=
  match g.rootEntries with
  | [] => (g, 0)
  | roots =>
    let length := g.code.length
    let size := g.code.size
    let g := g.removeSpans (g.code.deadSpans (g.code.reachable roots))
    let removed := length - g.code.length
    (if removed = 0 then g else g.note (.deadCode removed (size - g.code.size)), removed)

/-- Points the jumps that still wait at the end of the script. -/
def closeLinks : List Link → Emission Unit
  | [] => pure ()
  | .jump source :: links => do
    modify fun g => g.setTarget source .scriptEnd
    closeLinks links
  | _ :: _ => throw .misuse

/-- The calls that wait for a method, each with the name of the method. -/
def waitingCalls (g : Generator) : List (Handle × String) :=
  g.waiting.entries.flatMap fun e => e.2.map fun call => (call, e.1)

/-- A choice of one of some names, if there are any. Which one it is depends on nothing that a caller can know. -/
structure Choice where
  pick : List String → Option String
  mem : ∀ {names name}, pick names = some name → name ∈ names
  none : ∀ {names}, pick names = .none → names = []

/-- The first name. -/
def Choice.first : Choice where
  pick := List.head?
  mem := List.mem_of_head?
  none := List.head?_eq_none_iff.1

/-- A method that is called and has no body. Of several, some one of them is chosen. -/
def missingMethod? (g : Generator) (choice : Choice) : Option String :=
  choice.pick (g.waitingCalls.map Prod.snd)

/-- Widens the offsets that do not fit. -/
def widenJumps (g : Generator) : Generator :=
  let (code, widened) := g.code.widen
  widened.foldl
    (fun g h =>
      match g.code.instruction? h with
      | some i => g.note (.widen ((g.code.start? h).getD 0) i.opcode)
      | none => g)
    { g with code }

/-- Makes every offset fit, or refuses. -/
def fitJumps : Emission Unit := do
  let g ← get
  if g.options.widenJumps then modify widenJumps
  else
    match g.code.linked.find? g.code.overflows with
    | some h => refuse (.jumpTooFar ((g.code.start? h).getD 0))
    | none => pure ()

/-- The ranges of methods with the given starts, each up to the byte before the next start. -/
def rangesUpTo (size : Nat) : List (String × Nat) → List (String × MethodRange)
  | [] => []
  | (name, start) :: rest =>
    let stop := ((rest.head?.map Prod.snd).getD size) - 1
    (name, ⟨start.toUInt32, stop.toUInt32⟩) :: rangesUpTo size rest

/-- The methods in the order of addresses. -/
def methodRanges (g : Generator) : Table String MethodRange :=
  let starts := g.entries.entries.filterMap fun e => (g.code.start? e.2).map fun a => (e.1, a)
  .ofList (rangesUpTo g.code.size (starts.mergeSort fun a b => a.2 ≤ b.2))

/-- Links what is open, simplifies the code and writes the unit, which gets the failures that were recorded. -/
def finish (choice : Choice) (failures : List MethodFailure) : Emission CompiledUnit := do
  let g ← get
  if let some name := g.currentMethod? then refuse (.methodOpen name)
  let statics ← Emission.ofExcept g.staticSlots
  set { g with pending := [] }
  closeLinks g.pending
  if let some name := (← get).missingMethod? choice then refuse (.missingBody name)
  if g.options.removesDeadCode then modify fun g => g.removeDeadCode.1
  fitJumps
  let g ← get
  match g.code.image? with
  | none => throw .misuse
  | some script =>
    return {
      script, tokens := g.tokens, methods := g.methodRanges, staticFields := statics.length.toUInt8, failures }

end NeoScript.Generator
