import NeoScript.Generator.Emit
import NeoScript.Snippet.Subscript

/-!
# Indexing, slicing and strides

Each operation looks at the types of the collection and of the bounds, emits the snippet for them and settles
the net effect on the shadow stack at once. An index whose type says that it is not negative needs no correction.
-/

namespace NeoScript.Generator

/-- Lets a negative index on top count from the end of the collection `depth` places below it. The machine
reaches at most sixteen places down. -/
def fixNegativeIndex (depth : Nat) : Emission Unit := do
  if (← get).stack.peek 0 ≠ .nonNegInt then
    if h : depth < 17 then
      modify fun g => (g.emitSnippet (.fixIndex ⟨depth, h⟩)).settle 1 .int
    else
      modify fun g => ((g.emitSnippet (.ops [.dup, .sign, .pushMinusOne])).emitJump .ne)
      throw .misuse

/-- `[c, i] → [c[i]]`. -/
def getItem : Emission Unit := do
  let collection := (← get).stack.peek 1
  match collection with
  | .dict _ _ => modify fun g => g.emit .pickItem
  | .str =>
    fixNegativeIndex 1
    modify fun g => g.emitSnippet (.ops [.push 1, .subStr] ++ .convert .byteString)
  | _ =>
    if collection.isSequence || collection == .any then
      fixNegativeIndex 1
      modify fun g => g.emit .pickItem
    else refuse (.unsupported "[]" collection)
  modify fun g => g.settle 2 collection.subscript

/-- `[c, i, v] → []`, with `v` at `c[i]`. -/
def setItem : Emission Unit := do
  let g ← get
  match g.stack.peek 2 with
  | .dict _ _ => pure ()
  | .list _ | .byteArray | .any =>
    if g.stack.peek 1 ≠ .nonNegInt then
      modify swap
      fixNegativeIndex 2
      modify swap
  | collection => refuse (.unsupported "[]=" collection)
  modify fun g => g.op .setItem 3 none

/-- `[c, i] → []`, without `c[i]`. -/
def deleteItem : Emission Unit := do
  match (← get).stack.peek 1 with
  | .dict _ _ => pure ()
  | .list _ | .any => fixNegativeIndex 1
  | collection => refuse (.unsupported "del" collection)
  modify fun g => g.op .remove 2 none

/-- The type of the collection `depth` places below the top, if it can be sliced. What is not known is taken for
a list. -/
def sliceable (g : Generator) (depth : Nat) : Except CompileError ValueType :=
  match g.stack.peek depth with
  | .any => .ok (.list .any)
  | t => if t.isSequence then .ok t else .error (.unsupported "[:]" t)

/-- Emits the snippet that replaces the collection `depth` places below the top, and all above it, by another
collection of its type. -/
def replaceSlice (depth : Nat) (snippet : Generator → ValueType → Snippet) : Emission Unit := do
  let g ← get
  let collection ← Emission.ofExcept (g.sliceable depth)
  modify fun g => (g.emitSnippet (snippet g collection)).settle (depth + 1) collection

/-- `[c, s, e] → [c[s:e]]`. -/
def slice : Emission Unit :=
  replaceSlice 2 fun g collection => .slice collection (g.stack.peek 1) (g.stack.peek 0)

/-- `[c, e] → [c[:e]]`. -/
def sliceBeginning : Emission Unit :=
  replaceSlice 1 fun g collection => .sliceBeginning collection (g.stack.peek 0)

/-- `[c, s] → [c[s:]]`. -/
def sliceEnding : Emission Unit :=
  replaceSlice 1 fun g collection => .sliceEnding collection (g.stack.peek 0)

/-- `[c] → [c[:]]`. -/
def copy : Emission Unit := replaceSlice 0 fun _ collection => .copy collection

/-- `[c, k] → [c[::k]]`. -/
def stride : Emission Unit := replaceSlice 1 fun _ collection => .stride collection

/-- `[c, s, e, k] → [c[s:e:k]]`. -/
def sliceStride : Emission Unit :=
  replaceSlice 3 fun g collection =>
    .sliceStride collection (g.stack.peek 2) (g.stack.peek 1) (g.stack.peek 0)

end NeoScript.Generator
