import NeoScript.Proofs.Machine.Slice
import NeoScript.Proofs.Machine.Snippet

/-!
# Sequences

A sequence is an array, a byte string or a buffer, and its contents are its items or its bytes. What is new in the heap
leaves the contents of everything else alone.
-/

namespace NeoScript.Machine

open NeoScript.Machine.Action List

/-- The kind of item that a value is. -/
def Value.itemType : Value → ItemType
  | null => .any
  | bool _ => .boolean
  | int _ => .integer
  | bytes _ => .byteString
  | buffer _ => .buffer
  | array _ => .array
  | map _ => .map

/-! ### Contents -/

/-- What is in a sequence. -/
inductive Contents where
  | items (vs : List Value)
  | bytes (bs : Bytes)
  deriving DecidableEq, Repr

namespace Contents

def length : Contents → Nat
  | items vs => vs.length
  | bytes bs => bs.length

/-- The contents of a slice. -/
def slice (s : Slice) : Contents → Contents
  | items vs => items (s.get vs)
  | bytes bs => bytes (s.get bs)

/-- The kind of item that holds the contents of a value of a type. -/
def kind (t : ValueType) : Contents → ItemType
  | items _ => .array
  | bytes _ => t.itemType

/-- Whether a value of a type can have the contents. What is not known is taken for an array. -/
def fits : Contents → ValueType → Bool
  | items _, t => t.isArrayLike || t == .any
  | bytes _, t => t.isByteLike

end Contents

namespace Heap

variable {h h' h'' : Heap} {v : Value} {vs ws : List Value} {bs cs : Bytes} {content : Contents}

/-- The contents of a sequence. -/
def contents? (h : Heap) : Value → Option Contents
  | .array ref => h.arrays[ref]?.map .items
  | .bytes bs => some (.bytes bs)
  | .buffer ref => h.buffers[ref]?.map .bytes
  | _ => none

lemma contents?_items : h.contents? v = some (.items vs) ↔ ∃ ref, v = .array ref ∧ h.arrays[ref]? = some vs := by
  cases v <;> simp [contents?]

lemma contents?_bytes : h.contents? v = some (.bytes bs) ↔ h.bytes? v = some bs := by
  cases v <;> simp [contents?, bytes?]

/-- Everything in `h` is in `h'` and unchanged. -/
structure Extends (h h' : Heap) : Prop where
  arrays : h.arrays <+: h'.arrays
  buffers : h.buffers <+: h'.buffers
  maps : h.maps <+: h'.maps

namespace Extends

lemma refl (h : Heap) : Extends h h := ⟨prefix_refl _, prefix_refl _, prefix_refl _⟩

lemma trans (e : Extends h h') (e' : Extends h' h'') : Extends h h'' :=
  ⟨e.arrays.trans e'.arrays, e.buffers.trans e'.buffers, e.maps.trans e'.maps⟩

lemma addArray (h : Heap) (vs : List Value) : Extends h (h.addArray vs) :=
  ⟨prefix_append _ _, prefix_refl _, prefix_refl _⟩

lemma addBuffer (h : Heap) (bs : Bytes) : Extends h (h.addBuffer bs) :=
  ⟨prefix_refl _, prefix_append _ _, prefix_refl _⟩

lemma getElem?_of_prefix {α : Type} {l l' : List α} {i : Nat} {a : α} (hp : l <+: l') (hi : l[i]? = some a) :
    l'[i]? = some a := by
  obtain ⟨hlt, rfl⟩ := List.getElem?_eq_some_iff.1 hi
  exact prefix_iff_getElem?.1 hp i hlt

lemma array (e : Extends h h') {ref : Nat} (hr : h.arrays[ref]? = some vs) : h'.arrays[ref]? = some vs :=
  getElem?_of_prefix e.arrays hr

lemma bytes (e : Extends h h') (hv : h.bytes? v = some bs) : h'.bytes? v = some bs := by
  cases v with
  | buffer ref => exact getElem?_of_prefix e.buffers hv
  | _ => exact hv

end Extends

/-! ### What is new -/

lemma array_addArray (h : Heap) (vs : List Value) : (h.addArray vs).arrays[h.arrays.length]? = some vs := by
  simp [addArray]

lemma setArray_addArray (h : Heap) (vs ws : List Value) : (h.addArray vs).setArray h.arrays.length ws = h.addArray ws := by
  simp [addArray, setArray]

lemma bytes_addBuffer (h : Heap) (bs : Bytes) : (h.addBuffer bs).bytes? (.buffer h.buffers.length) = some bs := by
  simp [addBuffer, bytes?]

lemma setBuffer_addBuffer (h : Heap) (bs cs : Bytes) :
    (h.addBuffer bs).setBuffer h.buffers.length cs = h.addBuffer cs := by
  simp [addBuffer, setBuffer]

end Heap

/-! ### Instructions that look into the heap -/

variable {h : Heap} {S : List Value} {v c : Value} {vs : List Value} {bs cs : Bytes} {content : Contents} {ref i n : Nat}

lemma perform_size (hc : h.contents? c = some content) :
    perform .size [] ⟨c :: S, h⟩ = some ⟨.int content.length :: S, h⟩ := by
  have hrun : size.run ⟨c :: S, h⟩ = some ((), ⟨.int content.length :: S, h⟩) := by
    cases content with
    | items vs =>
      obtain ⟨ref, rfl, hr⟩ := Heap.contents?_items.1 hc
      simp [size, hr, Contents.length]
    | bytes bs =>
      have hb := Heap.contents?_bytes.1 hc
      cases c with
      | array ref | map ref => cases hb
      | _ => simp [size, hb, Contents.length]
  exact perform_of_run hrun

section

variable (hr : h.arrays[ref]? = some vs)
include hr

lemma perform_pickItem (hi : vs[i]? = some v) : perform .pickItem [] ⟨.int i :: .array ref :: S, h⟩ = some ⟨v :: S, h⟩ :=
  perform_of_run (show pickItem.run _ = _ by simp [pickItem, hr, hi])

lemma perform_append : perform .append [] ⟨v :: .array ref :: S, h⟩ = some ⟨S, h.setArray ref (vs ++ [v])⟩ :=
  perform_of_run (show append.run _ = _ by simp [append, run_popArray hr])

lemma perform_remove (hi : i < vs.length) :
    perform .remove [] ⟨.int i :: .array ref :: S, h⟩ = some ⟨S, h.setArray ref (vs.eraseIdx i)⟩ :=
  perform_of_run (show remove.run _ = _ by simp [remove, run_popArray hr, hi])

lemma perform_reverseItems_array : perform .reverseItems [] ⟨.array ref :: S, h⟩ = some ⟨S, h.setArray ref vs.reverse⟩ :=
  perform_of_run (show reverseItems.run _ = _ by simp [reverseItems, hr])

end

lemma perform_reverseItems_buffer (hr : h.buffers[ref]? = some bs) :
    perform .reverseItems [] ⟨.buffer ref :: S, h⟩ = some ⟨S, h.setBuffer ref bs.reverse⟩ :=
  perform_of_run (show reverseItems.run _ = _ by simp [reverseItems, hr])

lemma perform_unpack (hr : h.arrays[ref]? = some vs) :
    perform .unpack [] ⟨.array ref :: S, h⟩ = some ⟨.int vs.length :: (vs ++ S), h⟩ :=
  perform_of_run (show unpack.run _ = _ by simp [unpack, run_popArray hr])

lemma perform_pack (vs S : List Value) (h : Heap) :
    perform .pack [] ⟨.int vs.length :: (vs ++ S), h⟩ = some ⟨.array h.arrays.length :: S, h.addArray vs⟩ :=
  perform_of_run (show pack.run _ = _ by simp [pack])

lemma perform_subStr (hc : h.bytes? c = some bs) (hi : i + n ≤ bs.length) :
    perform .subStr [] ⟨.int n :: .int i :: c :: S, h⟩ =
      some ⟨.buffer h.buffers.length :: S, h.addBuffer ((bs.drop i).take n)⟩ :=
  perform_of_run (show subStr.run _ = _ by simp [subStr, run_popBytes hc, hi])

lemma perform_left (hc : h.bytes? c = some bs) (hn : n ≤ bs.length) :
    perform .left [] ⟨.int n :: c :: S, h⟩ = some ⟨.buffer h.buffers.length :: S, h.addBuffer (bs.take n)⟩ :=
  perform_of_run (show left.run _ = _ by simp [left, run_popBytes hc, hn])

lemma perform_right (hc : h.bytes? c = some bs) (hn : n ≤ bs.length) : perform .right [] ⟨.int n :: c :: S, h⟩ =
      some ⟨.buffer h.buffers.length :: S, h.addBuffer (bs.drop (bs.length - n))⟩ :=
  perform_of_run (show right.run _ = _ by simp [right, run_popBytes hc, hn])

lemma perform_cat (hv : h.bytes? v = some bs) (hc : h.bytes? c = some cs) :
    perform .cat [] ⟨c :: v :: S, h⟩ = some ⟨.buffer h.buffers.length :: S, h.addBuffer (bs ++ cs)⟩ :=
  perform_of_run (show cat.run _ = _ by simp [cat, run_popBytes hv, run_popBytes hc])

lemma perform_convert_byteString (hc : h.bytes? c = some bs) :
    perform .convert [ItemType.byteString.byte] ⟨c :: S, h⟩ = some ⟨.bytes bs :: S, h⟩ :=
  perform_of_run (show (convert ItemType.byteString.byte).run _ = _ by
    simp [convert, run_popBytes hc])

lemma perform_convert_buffer (hc : h.bytes? c = some bs) :
    perform .convert [ItemType.buffer.byte] ⟨c :: S, h⟩ = some ⟨.buffer h.buffers.length :: S, h.addBuffer bs⟩ :=
  perform_of_run (show (convert ItemType.buffer.byte).run _ = _ by
    have hne : ItemType.buffer.byte ≠ ItemType.byteString.byte := by decide
    simp [convert, hne, run_popBytes hc])

end NeoScript.Machine
