import NeoScript.Snippet.Basic

/-!
# Indexes, slices and strides

An index that is negative counts from the end, the bounds of a slice are clamped into the collection, and a
stride may run backwards. The machine knows none of this, so each use carries a snippet that does it.

Byte strings are cut with the machine's own instructions, which leave a buffer; arrays are copied in a loop.
-/

namespace NeoScript.Snippet

/-! ### Indexes -/

/-- `[…, i] → […, i]`: adds the size of the collection `depth` places below to a negative index. -/
def fixIndex (depth : Fin 17) : Snippet :=
  ops [.dup, .sign, .pushMinusOne] ++ skip .ne (pick depth ++ ops [.size, .add])

/-- Whether a number of this type may be negative. -/
def mayBeNegative (bound : ValueType) : Bool := bound != .nonNegInt

/-- Counts a bound from the end if it may be negative. -/
def fixBound (bound : ValueType) (depth : Fin 17) : Snippet := guarded (mayBeNegative bound) (fixIndex depth)

/-- Brings a bound that is counted from the start between zero and the size. -/
def clampFixed (bound : ValueType) (depth : Fin 17) : Snippet :=
  guarded (mayBeNegative bound) (ops [.push 0, .max]) ++ pick depth ++ ops [.size, .min]

/-- Brings a bound between zero and the size. -/
def clamp (bound : ValueType) (depth : Fin 17) : Snippet := fixBound bound depth ++ clampFixed bound depth

/-! ### Slices -/

/-- Turns the buffer that byte instructions leave into the representation of the collection. -/
def byteResult (collection : ValueType) : Snippet :=
  guarded (collection != .byteArray) (convert .byteString)

/-- `[c, s, e] → [c[s:e]]` for an array and bounds inside it: collects the items in a new array. -/
def sliceArray : Snippet :=
  ops [.swap, .newArray0, .reverse4, .reverse3] ++
    loop (ops [.push 3, .pick, .push 3, .pick, .push 2, .pick, .pickItem, .append, .inc])
      (ops [.dup, .push 2, .pick, .lt]) .ifTrue ++
    ops [.drop, .drop, .drop]

/-- `[c, s, e] → [c[s:e]]` for bounds inside the collection. -/
def sliceBounded (collection : ValueType) : Snippet :=
  if collection.isByteLike then
    ops [.dupBelow, .sub, .push 0, .max, .subStr] ++ byteResult collection
  else sliceArray

/-- `[c, s, e] → [c[s:e]]`. -/
def slice (collection start stop : ValueType) : Snippet :=
  clamp stop 2 ++ op .swap ++ clamp start 2 ++ op .swap ++ sliceBounded collection

/-- `[c, e] → [c[:e]]`. -/
def sliceBeginning (collection stop : ValueType) : Snippet :=
  clamp stop 1 ++
    if collection.isByteLike then op .left ++ byteResult collection
    else ops [.push 0, .swap] ++ sliceBounded collection

/-- `[c, s] → [c[s:]]`. -/
def sliceEnding (collection start : ValueType) : Snippet :=
  clamp start 1 ++
    if collection.isByteLike then ops [.dupBelow, .size, .swap, .sub, .right] ++ byteResult collection
    else ops [.dupBelow, .size] ++ sliceBounded collection

/-- `[c] → [copy of c]`; what cannot be changed is shared. -/
def copy (collection : ValueType) : Snippet :=
  match collection with
  | .str | .bytes => nil
  | .byteArray => ops [.dup, .size, .left]
  | _ => ops [.unpack, .pack]

/-! ### Strides -/

/-- `[r, k] → [r, |k|]`, turning `r` round in place if `k` is negative. -/
def stepDirection : Snippet :=
  ops [.dup, .push 0] ++ skip .ge (ops [.dupBelow, .reverseItems]) ++ op .abs

/-- `[r, k] → [every k-th item of r]` for a new array `r`: removes the other items from the end on. -/
def strideArray : Snippet :=
  stepDirection ++ ops [.dupBelow, .size, .dec] ++
    loop
      (ops [.dup, .push 2, .pick, .mod] ++ skip .ifFalse (ops [.push 2, .pick, .dupBelow, .remove]) ++ op .dec)
      (ops [.dup, .push 0]) .ge ++
    ops [.drop, .drop]

/-- `[b, k] → [every k-th byte of b]`, collected in a new byte string. The bytes are turned round in a buffer
of their own. -/
def strideBytes (collection : ValueType) : Snippet :=
  op .swap ++
    (if collection = .byteArray then ops [.dup, .size, .left] else convert .buffer) ++
    op .swap ++ stepDirection ++ op (.push 0) ++ data (.pushData 0) [] ++
    loop
      (ops [.push 3, .pick, .push 2, .pick, .push 1, .subStr, .cat, .swap, .push 2, .pick, .add, .swap])
      (ops [.dupBelow, .push 4, .pick, .size, .lt]) .ifTrue ++
    ops [.nip, .nip, .nip] ++ byteResult collection

/-- `[r, k] → [every k-th item of r]`, from the end if `k` is negative. -/
def strideOf (collection : ValueType) : Snippet :=
  if collection.isByteLike then strideBytes collection else strideArray

/-- `[c, k] → [c[::k]]`. -/
def stride (collection : ValueType) : Snippet :=
  guarded (!collection.isByteLike) (op .swap ++ copy collection ++ op .swap) ++ strideOf collection

/-- `[c, s, e, k] → [c[s:e:k]]`. A negative step walks from `s` down to `e`, exclusive: the items of
`c[e + 1:s + 1]` are taken from the end. -/
def sliceStride (collection start stop step : ValueType) : Snippet :=
  let bounds : ValueType := if mayBeNegative start || mayBeNegative stop then .int else .nonNegInt
  ops [.reverse4, .reverse3] ++ fixBound stop 2 ++ op .swap ++ fixBound start 2 ++ op .swap ++
    guarded (mayBeNegative step)
      (ops [.push 3, .pick, .push 0] ++ skip .ge (ops [.inc, .swap, .inc])) ++
    clampFixed bounds 2 ++ op .swap ++ clampFixed bounds 2 ++ op .swap ++
    sliceBounded collection ++ op .swap ++ strideOf collection

end NeoScript.Snippet
