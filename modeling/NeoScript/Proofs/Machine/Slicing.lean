import NeoScript.Proofs.Machine.Indexing

/-!
# Slices of sequences

The bounds of a slice are brought into the sequence before it is cut. Bytes are cut with the instructions that the
machine has for them. The items of an array are copied one by one, and the invariant of the loop that does so is that the
new array holds the block of items up to the one that is copied next.
-/

namespace NeoScript

open Generator Machine Slice List Snippet Heap

/-! ### Bounds -/

namespace Slice

variable {α : Type} {k : Int} {n : Nat}

/-- The place in a sequence of `n` items that is nearest to a bound. -/
def nearest (n : Nat) (b : Int) : Nat := (min (max b 0) n).toNat

lemma nearest_le (n : Nat) (b : Int) : nearest n b ≤ n := by
  unfold nearest
  omega

lemma cast_nearest (n : Nat) (b : Int) : (nearest n b : Int) = min (max b 0) n := by
  unfold nearest
  omega

lemma toNat_place_up (hk : 0 < k) (b : Int) : (place k n b).toNat = nearest n (fromStart n b) := by
  rw [place, if_neg (by omega), nearest]
  omega

lemma toNat_place_down (hk : k < 0) (b : Int) : (place k n b + 1).toNat = nearest n (fromStart n b + 1) := by
  rw [place, if_pos hk, nearest]
  omega

lemma block_of_le {lo hi : Nat} (hle : hi ≤ lo) (xs : List α) : block lo hi xs = [] :=
  drop_eq_nil_of_le (le_trans (length_take_le hi xs) hle)

lemma block_succ {lo i : Nat} {x : α} {xs : List α} (hlo : lo ≤ i) (hx : xs[i]? = some x) :
    block lo (i + 1) xs = block lo i xs ++ [x] := by
  have hlt := (List.getElem?_eq_some_iff.1 hx).1
  rw [block, take_add_one, hx, drop_append_of_le_length (by rw [length_take]; omega)]
  rfl

lemma block_length (lo : Nat) (xs : List α) : block lo xs.length xs = xs.drop lo := by rw [block, take_length]

/-- The bounds that a slice has, the last first. -/
def bounds (s : Slice) : List Int := s.stop.toList ++ s.start.toList

end Slice

namespace Machine.Contents

/-- A block of the contents. -/
def block (lo hi : Nat) : Contents → Contents
  | items vs => items (Slice.block lo hi vs)
  | bytes bs => bytes (Slice.block lo hi bs)

lemma block_whole (content : Contents) : content.block 0 content.length = content := by
  cases content with
  | items vs => exact congrArg items (block_length 0 vs)
  | bytes bs => exact congrArg bytes (block_length 0 bs)

/-- A slice without step is the block between its bounds. -/
lemma slice_eq_block {s : Slice} (hs : s.step = 1) (content : Contents) :
    content.slice s = content.block (s.first content.length).toNat (s.last content.length).toNat := by
  cases content with
  | items vs => exact congrArg items (get_one hs vs)
  | bytes bs => exact congrArg bytes (get_one hs bs)

end Machine.Contents

/-! ### Snippets -/

namespace Snippet

variable {S : List Value} {h : Heap} {c v : Value} {content : Contents} {i b b' : Int} {d : Fin 17}
  {t index start stop : ValueType}
  {vs : List Value} {bs : Bytes} {ref n lo hi : Nat} {T : List Value}

/-- A bound is brought into the sequence `d` places below. -/
lemma yields_clampFixed (ht : t.Admits b) (hd : d.val = n + 1) (hc : S[n]? = some c)
    (hcontent : h.contents? c = some content) :
    Yields (clampFixed t d) ⟨.int b :: S, h⟩ (some ⟨.int (nearest content.length b) :: S, h⟩) := by
  have hpick : Yields (pick d) ⟨.int (max b 0) :: S, h⟩ (some ⟨c :: .int (max b 0) :: S, h⟩) :=
    yields_pick (by rw [hd]; exact hc)
  have hmin : Yields (ops [.size, .min]) ⟨c :: .int (max b 0) :: S, h⟩ (some ⟨.int (nearest content.length b) :: S, h⟩) := by
    refine yields_ops ?_
    rw [performAll, perform_size hcontent, cast_nearest]
    rfl
  refine .append (.append ?_ hpick) hmin
  unfold guarded mayBeNegative
  split_ifs with hneg
  · exact yields_ops rfl
  · have hle : 0 ≤ b := ht (by simpa using hneg)
    rw [Int.max_eq_left hle]
    exact .nil

lemma yields_clamp (ht : t.Admits b) (hd : d.val = n + 1) (hc : S[n]? = some c) (hcontent : h.contents? c = some content) :
    Yields (clamp t d) ⟨.int b :: S, h⟩ (some ⟨.int (nearest content.length (fromStart content.length b)) :: S, h⟩) := by
  have hfix := yields_fixBound (d := d) ht (by rw [hd]; exact hc) hcontent
  refine hfix.append (yields_clampFixed (fun h => ?_) hd hc hcontent)
  have hle := ht h
  rwa [fromStart, if_neg (by omega)]

lemma yields_byteResult (hv : h.bytes? v = some bs) :
    ∃ w, Yields (byteResult t) ⟨v :: S, h⟩ (some ⟨w :: S, h⟩) ∧ h.bytes? w = some bs ∧
      w.itemType = if t = .byteArray then v.itemType else .byteString := by
  unfold byteResult guarded
  by_cases ht : t = .byteArray
  · rw [if_neg (by simp [ht]), if_pos ht]
    exact ⟨v, .nil, hv, rfl⟩
  · rw [if_pos (by simp [ht]), if_neg ht]
    exact ⟨.bytes bs, .data (perform_convert_byteString hv), rfl, rfl⟩

/-- One more item is copied. -/
lemma yields_copyItem {ws : List Value} {j : Nat} (hr : h.arrays[ref]? = some vs) (hv : vs[j]? = some v) :
    Yields (ops [.push 3, .pick, .push 3, .pick, .push 2, .pick, .pickItem, .append, .inc])
      ⟨.int j :: .int hi :: .array ref :: .array h.arrays.length :: S, h.addArray ws⟩
      (some ⟨.int (j + 1 : Nat) :: .int hi :: .array ref :: .array h.arrays.length :: S, h.addArray (ws ++ [v])⟩) := by
  refine yields_ops ?_
  have hr' := (Heap.Extends.addArray h ws).array hr
  change (perform .pickItem [] ⟨.int j :: .array ref :: .array h.arrays.length :: .int j :: .int hi :: .array ref ::
    .array h.arrays.length :: S, h.addArray ws⟩).bind _ = _
  rw [perform_pickItem hr' hv]
  change (perform .append [] ⟨v :: .array h.arrays.length :: .int j :: .int hi :: .array ref ::
    .array h.arrays.length :: S, h.addArray ws⟩).bind _ = _
  rw [perform_append (h.array_addArray ws), h.setArray_addArray]
  rfl

/-- The items that are still to be copied are appended to the block that the new array holds. -/
lemma yields_copyItems (hr : h.arrays[ref]? = some vs) (hhi : hi ≤ vs.length) {j : Nat} (hlo : lo ≤ j)
    (hj : j ≤ max lo hi) :
    ∃ k : Nat, Yields (loop (ops [.push 3, .pick, .push 3, .pick, .push 2, .pick, .pickItem, .append, .inc])
      (ops [.dup, .push 2, .pick, .lt]) .ifTrue)
      ⟨.int j :: .int hi :: .array ref :: .array h.arrays.length :: S, h.addArray (block lo j vs)⟩
      (some ⟨.int k :: .int hi :: .array ref :: .array h.arrays.length :: S, h.addArray (block lo hi vs)⟩) := by
  have htest : ∀ (j : Nat) (h' : Heap), Yields (ops [.dup, .push 2, .pick, .lt])
      ⟨.int j :: .int hi :: .array ref :: .array h.arrays.length :: S, h'⟩
      (some ⟨.bool (decide ((j : Int) < hi)) :: .int j :: .int hi :: .array ref :: .array h.arrays.length :: S, h'⟩) :=
    fun j h' => yields_ops rfl
  induction hk : hi - j generalizing j with
  | zero =>
    have hblock : block lo j vs = block lo hi vs := by
      rcases le_total lo hi with hle | hle
      · rw [show j = hi by omega]
      · rw [block_of_le (by omega), block_of_le hle]
    have hdone : decide ((j : Int) < hi) = false := decide_eq_false (by omega)
    rw [hblock]
    refine ⟨j, .left (htest j _) ?_⟩
    rw [hdone]
    rfl
  | succ k ih =>
    have hlt : j < vs.length := by omega
    have hv : vs[j]? = some vs[j] := getElem?_eq_getElem hlt
    have hgo : decide ((j : Int) < hi) = true := decide_eq_true (by omega)
    obtain ⟨l, hrest⟩ := ih (j := j + 1) (by omega) (by omega) (by omega)
    rw [block_succ hlo hv] at hrest
    refine ⟨l, .round (htest j _) ?_ (yields_copyItem hr hv) hrest⟩
    rw [hgo]
    rfl

/-- **A block of an array is copied** to a new array. -/
lemma yields_sliceArray (hr : h.arrays[ref]? = some vs) (hhi : hi ≤ vs.length) :
    Yields sliceArray ⟨.int hi :: .int lo :: .array ref :: S, h⟩
      (some ⟨.array h.arrays.length :: S, h.addArray (block lo hi vs)⟩) := by
  have hstart : Yields (ops [.swap, .newArray0, .reverse4, .reverse3]) ⟨.int hi :: .int lo :: .array ref :: S, h⟩
      (some ⟨.int lo :: .int hi :: .array ref :: .array h.arrays.length :: S, h.addArray (block lo lo vs)⟩) := by
    rw [block_of_le (le_refl lo)]
    exact yields_ops rfl
  obtain ⟨k, hloop⟩ := yields_copyItems (S := S) (j := lo) hr hhi (le_refl lo) (by omega)
  exact .append (.append hstart hloop) (yields_ops rfl)

lemma yields_sliceBytes (hc : h.bytes? c = some bs) (hlo : lo ≤ bs.length) (hhi : hi ≤ bs.length) :
    Yields (ops [.dupBelow, .sub, .push 0, .max, .subStr]) ⟨.int hi :: .int lo :: c :: S, h⟩
      (some ⟨.buffer h.buffers.length :: S, h.addBuffer (block lo hi bs)⟩) := by
  refine yields_ops ?_
  have hcount : max ((hi : Int) - lo) 0 = ((hi - lo : Nat) : Int) := by omega
  have hperform := perform_subStr (S := S) (i := lo) (n := hi - lo) hc (by omega)
  rw [← drop_take] at hperform
  change (perform .subStr [] ⟨.int (max ((hi : Int) - lo) 0) :: .int lo :: c :: S, h⟩).bind _ = _
  rw [hcount, hperform]
  rfl

lemma yields_cutEnd (hc : h.bytes? c = some bs) (hlo : lo ≤ bs.length) :
    Yields (ops [.dupBelow, .size, .swap, .sub, .right]) ⟨.int lo :: c :: S, h⟩
      (some ⟨.buffer h.buffers.length :: S, h.addBuffer (block lo bs.length bs)⟩) := by
  refine yields_ops ?_
  have hcount : (bs.length : Int) - lo = ((bs.length - lo : Nat) : Int) := by omega
  have hright := perform_right (S := S) hc (Nat.sub_le bs.length lo)
  rw [Nat.sub_sub_self hlo, ← block_length] at hright
  change (perform .size [] ⟨c :: .int lo :: c :: S, h⟩).bind _ = _
  rw [perform_size (contents?_bytes.2 hc)]
  change (perform .right [] ⟨.int ((bs.length : Int) - lo) :: c :: S, h⟩).bind _ = _
  rw [hcount, hright]
  rfl

/-- A value with the given contents and of a kind in `P` is left on the stack. Nothing else changes. -/
def Produces (s : Snippet) (m : Operands) (S : List Value) (content : Contents) (P : ItemType → Prop) : Prop :=
  ∃ v h', Yields s m (some ⟨v :: S, h'⟩) ∧ m.heap.Extends h' ∧ h'.contents? v = some content ∧ P v.itemType

lemma Produces.mono {s : Snippet} {m : Operands} {P Q : ItemType → Prop} (hs : Produces s m S content P)
    (hP : ∀ k, P k → Q k) : Produces s m S content Q := by
  obtain ⟨v, h', hy, he, hv, hk⟩ := hs
  exact ⟨v, h', hy, he, hv, hP _ hk⟩

lemma Yields.produces {s r : Snippet} {m : Operands} {P : ItemType → Prop} (hs : Yields s m (some ⟨T, m.heap⟩))
    (hr : Produces r ⟨T, m.heap⟩ S content P) : Produces (s ++ r) m S content P := by
  obtain ⟨v, h', hy, he, hv⟩ := hr
  exact ⟨v, h', hs.append hy, he, hv⟩

lemma byteLike_of_fits (ht : (Contents.bytes bs).fits t = true) : t.isByteLike = true := ht

lemma byteLike_cases (ht : t.isByteLike = true) : t = .str ∨ t = .bytes ∨ t = .byteArray := by
  unfold ValueType.isByteLike at ht
  split at ht
  · exact .inl rfl
  · exact .inr (.inl rfl)
  · exact .inr (.inr rfl)
  · cases ht

lemma not_byteLike_of_fits (ht : (Contents.items vs).fits t = true) : ¬ t.isByteLike = true := by
  intro hbytes
  rcases byteLike_cases hbytes with rfl | rfl | rfl <;> cases ht

lemma itemType_byteResult (ht : t.isByteLike = true) : (if t = .byteArray then .buffer else .byteString) = t.itemType := by
  rcases byteLike_cases ht with rfl | rfl | rfl <;> rfl

/-- Bytes in a new buffer are given the representation of the collection. -/
lemma Yields.produces_bytes {s : Snippet} (hs : Yields s ⟨c :: S, h⟩ (some ⟨.buffer h.buffers.length :: T, h.addBuffer bs⟩))
    (ht : t.isByteLike = true) : Produces (s ++ byteResult t) ⟨c :: S, h⟩ T (.bytes bs) (· = t.itemType) := by
  obtain ⟨w, hw, hb, hk⟩ := yields_byteResult (t := t) (S := T) (h.bytes_addBuffer bs)
  exact ⟨w, _, hs.append hw, .addBuffer h bs, contents?_bytes.2 hb, hk.trans (itemType_byteResult ht)⟩

/-- Items in a new array. -/
lemma Yields.produces_items {s : Snippet} (hs : Yields s ⟨c :: S, h⟩ (some ⟨.array h.arrays.length :: T, h.addArray vs⟩)) :
    Produces s ⟨c :: S, h⟩ T (.items vs) (· = .array) :=
  ⟨_, _, hs, .addArray h vs, contents?_items.2 ⟨_, rfl, h.array_addArray vs⟩, rfl⟩

lemma produces_sliceBounded (ht : content.fits t = true) (hc : h.contents? c = some content) (hlo : lo ≤ content.length)
    (hhi : hi ≤ content.length) : Produces (sliceBounded t) ⟨.int hi :: .int lo :: c :: S, h⟩ S (content.block lo hi)
      (· = content.kind t) := by
  unfold sliceBounded
  cases content with
  | items vs =>
    obtain ⟨ref, rfl, hr⟩ := contents?_items.1 hc
    rw [if_neg (not_byteLike_of_fits ht)]
    exact (yields_sliceArray hr hhi).produces_items
  | bytes bs =>
    rw [if_pos (byteLike_of_fits ht)]
    exact (yields_sliceBytes (contents?_bytes.1 hc) hlo hhi).produces_bytes ht

lemma produces_slice (hstart : start.Admits b) (hstop : stop.Admits b') (ht : content.fits t = true)
    (hc : h.contents? c = some content) : Produces (slice t start stop) ⟨.int b' :: .int b :: c :: S, h⟩ S
      (content.block (nearest content.length (fromStart content.length b))
        (nearest content.length (fromStart content.length b'))) (· = content.kind t) := by
  have hlast := yields_clamp (S := .int b :: c :: S) (d := 2) (n := 1) hstop rfl rfl hc
  have hfirst := yields_clamp (S := .int (nearest content.length (fromStart content.length b')) :: c :: S) (d := 2) (n := 1)
    hstart rfl rfl hc
  have hcut := produces_sliceBounded (S := S) ht hc (nearest_le _ (fromStart content.length b))
    (nearest_le _ (fromStart content.length b'))
  exact Yields.produces (.append (.append (.append hlast (.op rfl)) hfirst) (.op rfl)) hcut

lemma produces_sliceBeginning (hstop : stop.Admits b) (ht : content.fits t = true) (hc : h.contents? c = some content) :
    Produces (sliceBeginning t stop) ⟨.int b :: c :: S, h⟩ S
      (content.block 0 (nearest content.length (fromStart content.length b))) (· = content.kind t) := by
  have hlast := yields_clamp (S := c :: S) (d := 1) (n := 0) hstop rfl rfl hc
  have hle := nearest_le content.length (fromStart content.length b)
  refine hlast.produces ?_
  cases content with
  | items vs =>
    have hzero : Yields (ops [.push 0, .swap]) ⟨.int (nearest vs.length (fromStart vs.length b)) :: c :: S, h⟩
        (some ⟨.int (nearest vs.length (fromStart vs.length b)) :: .int (0 : Nat) :: c :: S, h⟩) := yields_ops rfl
    rw [if_neg (not_byteLike_of_fits ht)]
    exact hzero.produces (produces_sliceBounded ht hc (Nat.zero_le _) hle)
  | bytes bs =>
    rw [if_pos (byteLike_of_fits ht)]
    exact Yields.produces_bytes (.op (perform_left (contents?_bytes.1 hc) hle)) ht

lemma produces_sliceEnding (hstart : start.Admits b) (ht : content.fits t = true) (hc : h.contents? c = some content) :
    Produces (sliceEnding t start) ⟨.int b :: c :: S, h⟩ S
      (content.block (nearest content.length (fromStart content.length b)) content.length) (· = content.kind t) := by
  have hfirst := yields_clamp (S := c :: S) (d := 1) (n := 0) hstart rfl rfl hc
  have hle := nearest_le content.length (fromStart content.length b)
  refine hfirst.produces ?_
  revert hle
  generalize nearest content.length (fromStart content.length b) = lo
  intro hle
  cases content with
  | items vs =>
    have hsize : Yields (ops [.dupBelow, .size]) ⟨.int lo :: c :: S, h⟩ (some ⟨.int vs.length :: .int lo :: c :: S, h⟩) := by
      refine yields_ops ?_
      change (perform .size [] ⟨c :: .int lo :: c :: S, h⟩).bind _ = _
      rw [perform_size hc]
      rfl
    rw [if_neg (not_byteLike_of_fits ht)]
    exact hsize.produces (produces_sliceBounded ht hc hle (le_refl _))
  | bytes bs =>
    rw [if_pos (byteLike_of_fits ht)]
    exact (yields_cutEnd (contents?_bytes.1 hc) hle).produces_bytes ht

/-- The items of an array are put on the stack and into a new array. -/
lemma yields_copyArray (hr : h.arrays[ref]? = some vs) :
    Yields (ops [.unpack, .pack]) ⟨.array ref :: S, h⟩ (some ⟨.array h.arrays.length :: S, h.addArray vs⟩) := by
  refine yields_ops ?_
  rw [performAll, perform_unpack hr]
  change (perform .pack [] ⟨.int vs.length :: (vs ++ S), h⟩).bind _ = _
  rw [perform_pack]
  rfl

/-- Bytes are copied to a new buffer. -/
lemma yields_copyBytes (hc : h.bytes? c = some bs) :
    Yields (ops [.dup, .size, .left]) ⟨c :: S, h⟩ (some ⟨.buffer h.buffers.length :: S, h.addBuffer bs⟩) := by
  refine yields_ops ?_
  have hleft := perform_left (S := S) hc (le_refl bs.length)
  rw [take_length] at hleft
  change (perform .size [] ⟨c :: c :: S, h⟩).bind _ = _
  rw [perform_size (contents?_bytes.2 hc)]
  change (perform .left [] ⟨.int bs.length :: c :: S, h⟩).bind _ = _
  rw [hleft]
  rfl

lemma yields_copy_items (ht : (Contents.items vs).fits t = true) (hr : h.arrays[ref]? = some vs) :
    Yields (copy t) ⟨.array ref :: S, h⟩ (some ⟨.array h.arrays.length :: S, h.addArray vs⟩) := by
  have hbytes := not_byteLike_of_fits ht
  unfold copy
  split
  · exact absurd rfl hbytes
  · exact absurd rfl hbytes
  · exact absurd rfl hbytes
  · exact yields_copyArray hr

/-- Bytes that cannot be changed are shared, everything else is copied. -/
lemma produces_copy (ht : content.fits t = true) (hc : h.contents? c = some content) :
    Produces (copy t) ⟨c :: S, h⟩ S content fun k => c.itemType = content.kind t → k = content.kind t := by
  cases content with
  | items vs =>
    obtain ⟨ref, rfl, hr⟩ := contents?_items.1 hc
    exact (yields_copy_items ht hr).produces_items.mono fun _ hk _ => hk
  | bytes bs =>
    have hshared : Produces nil ⟨c :: S, h⟩ S (.bytes bs) fun k => c.itemType = t.itemType → k = t.itemType :=
      ⟨c, h, .nil, .refl h, hc, id⟩
    rcases byteLike_cases (byteLike_of_fits ht) with rfl | rfl | rfl
    · exact hshared
    · exact hshared
    · exact ⟨_, _, yields_copyBytes (contents?_bytes.1 hc), .addBuffer h bs, contents?_bytes.2 (h.bytes_addBuffer bs),
        fun _ => rfl⟩

end Snippet

/-! ### The operations -/

namespace Generator

variable {g : Generator} {t : ValueType} {content : Contents} {d : Nat} {f : Generator → ValueType → Snippet}

lemma prints_replaceSlice (hl : Legible g) (hs : g.sliceable d = .ok t) (hp : (f g t).proper = true) :
    Prints (replaceSlice d f) (f g t) g ((g.emitSnippet (f g t)).settle (d + 1) t) := by
  refine .get ?_
  rw [hs]
  exact ⟨rfl, (Spells.emitSnippet hl hp).settle _ _⟩

/-- What fits the type of a sequence fits the type that it is sliced as. -/
lemma sliceable_of_fits (ht : content.fits (g.stack.peek d) = true) :
    ∃ t, g.sliceable d = .ok t ∧ content.fits t = true := by
  unfold sliceable
  split
  · next h =>
    rw [h] at ht
    refine ⟨.list .any, rfl, ?_⟩
    cases content with
    | items vs => rfl
    | bytes bs => cases ht
  · next hany =>
    have hseq : (g.stack.peek d).isSequence = true := by
      rcases Bool.or_eq_true_iff.1 (indexable_of_fits ht) with h | h
      · exact h
      · exact absurd (beq_iff_eq.1 h) hany
    exact ⟨_, if_pos hseq, ht⟩

end Generator

/-- **A slicing operation** takes the sequence `d` places below the top, and all above it, and leaves another sequence of
its type `t`, of a kind in `P t`. -/
def Emission.Replaces (op : Emission Unit) (g : Generator) (d : Nat) (m : Operands) (S : List Value) (result : Contents)
    (P : ValueType → ItemType → Prop) : Prop :=
  ∃ t g', g.sliceable d = .ok t ∧ op.run g = .ok () g' ∧ g'.stack.items = t :: g.stack.items.drop (d + 1) ∧
    ∃ v h', Emission.Yields op g m (some ⟨v :: S, h'⟩) ∧ m.heap.Extends h' ∧ h'.contents? v = some result ∧ P t v.itemType

lemma Underway.replaceSlice {g : Generator} {d : Nat} {f : Generator → ValueType → Snippet} {content result : Contents}
    {S : List Value} {m : Operands} {P : ValueType → ItemType → Prop} (hg : Underway g)
    (ht : content.fits (g.stack.peek d) = true) (hproper : ∀ t, (f g t).proper = true)
    (hf : ∀ t, content.fits t = true → (f g t).Produces m S result (P t)) :
    Emission.Replaces (replaceSlice d f) g d m S result P := by
  obtain ⟨t, hs, hfits⟩ := sliceable_of_fits ht
  obtain ⟨v, h', hy, he, hv, hk⟩ := hf t hfits
  have hprints := prints_replaceSlice hg.legible hs (hproper t)
  refine ⟨t, _, hs, hprints.run, ?_, v, h', hprints.yields hy, he, hv, hk⟩
  rw [settle, items_pushType, items_popTypes, items_emitSnippet]

/-- The command for a slice without step. -/
def Slice.command (s : Slice) : Command :=
  match s.start, s.stop with
  | some _, some _ => .slice
  | none, some _ => .sliceBeginning
  | some _, none => .sliceEnding
  | none, none => .copy

lemma Underway.replaces_slice {g : Generator} {s : Slice} {t : ValueType} {tags ts : List ValueType} {c : Value}
    {content : Contents} {S : List Value} {h : Heap} (hg : Underway g) (hs : s.step = 1)
    (hitems : g.stack.items = tags ++ t :: ts) (htags : Forall₂ ValueType.Admits tags s.bounds)
    (ht : content.fits t = true) (hc : h.contents? c = some content) :
    Emission.Replaces s.command.run g tags.length ⟨s.bounds.map .int ++ c :: S, h⟩ S (content.slice s)
      fun t k => c.itemType = content.kind t → k = content.kind t := by
  obtain ⟨start, stop, step⟩ := s
  obtain rfl : step = 1 := hs
  rw [Contents.slice_eq_block rfl]
  cases start with
  | none =>
    cases stop with
    | none =>
      obtain rfl := forall₂_nil_right_iff.1 htags
      refine hg.replaceSlice (by rwa [peek_of_items hitems]) (fun t => proper_copy t) fun t ht => ?_
      change Snippet.Produces _ _ _ (content.block 0 content.length) _
      rw [content.block_whole]
      exact produces_copy ht hc
    | some b =>
      obtain ⟨tag, _, hb, hnil, rfl⟩ := forall₂_cons_right_iff.1 htags
      obtain rfl := forall₂_nil_right_iff.1 hnil
      refine hg.replaceSlice (by rwa [peek_of_items hitems]) (fun t => proper_sliceBeginning t _) fun t ht => ?_
      have hlast := toNat_place_up (k := 1) (n := content.length) (by decide) b
      rw [peek_of_items hitems]
      exact (hlast ▸ produces_sliceBeginning hb ht hc).mono fun _ hk _ => hk
  | some b =>
    have hfirst := toNat_place_up (k := 1) (n := content.length) (by decide) b
    cases stop with
    | none =>
      obtain ⟨tag, _, hb, hnil, rfl⟩ := forall₂_cons_right_iff.1 htags
      obtain rfl := forall₂_nil_right_iff.1 hnil
      refine hg.replaceSlice (by rwa [peek_of_items hitems]) (fun t => proper_sliceEnding t _) fun t ht => ?_
      rw [peek_of_items hitems]
      exact (hfirst ▸ produces_sliceEnding hb ht hc).mono fun _ hk _ => hk
    | some b' =>
      obtain ⟨tag', _, hb', hrest, rfl⟩ := forall₂_cons_right_iff.1 htags
      obtain ⟨tag, _, hb, hnil, rfl⟩ := forall₂_cons_right_iff.1 hrest
      obtain rfl := forall₂_nil_right_iff.1 hnil
      refine hg.replaceSlice (by rwa [peek_of_items hitems]) (fun t => proper_slice t _ _) fun t ht => ?_
      have hlast := toNat_place_up (k := 1) (n := content.length) (by decide) b'
      rw [peek_of_items hitems, peek_of_items hitems]
      exact (hfirst ▸ hlast ▸ produces_slice hb hb' ht hc).mono fun _ hk _ => hk

/-- **Slices.** Whatever bounds a slice has and whatever their types, the code for it never faults and leaves the part of
the sequence that the bounds say. The sequence and what else there is stay as they are. -/
theorem slices_between_bounds {g : Generator} {s : Slice} {t : ValueType} {tags ts : List ValueType} {c : Value}
    {content : Contents} {S : List Value} {h : Heap} (hg : Underway g) (hs : s.step = 1)
    (hitems : g.stack.items = tags ++ t :: ts) (htags : List.Forall₂ ValueType.Admits tags s.bounds)
    (ht : content.fits t = true) (hc : h.contents? c = some content) :
    ∃ v h', Emission.Yields s.command.run g ⟨s.bounds.map .int ++ c :: S, h⟩ (some ⟨v :: S, h'⟩) ∧ h.Extends h' ∧
      h'.contents? v = some (content.slice s) := by
  obtain ⟨_, _, -, -, -, v, h', hy, he, hv, -⟩ := hg.replaces_slice (S := S) hs hitems htags ht hc
  exact ⟨v, h', hy, he, hv⟩

/-- A text is cut from its last but one byte on, up to a place far behind its end. -/
theorem slices_between_bounds_text :
    ∃ g, Underway g ∧ g.stack.items = [.int, .int, .str] ∧
      ∃ v h', Emission.Yields (Command.run .slice) g ⟨[.int 10, .int (-2), .bytes [104, 101, 121]], {}⟩ (some ⟨[v], h'⟩) ∧
        h'.contents? v = some (.bytes [101, 121]) := by
  have hbounds : typesAfter sequencesAndNumbers "main" [.load "text", .load "i", .load "j"] =
      some [.int, .int, .str] := by decide +kernel
  obtain ⟨g, hg, hitems⟩ := underway_typesAfter hbounds
  have hint : ∀ i : Int, ValueType.int.Admits i := fun _ h => by cases h
  have htags : List.Forall₂ ValueType.Admits [.int, .int] [10, -2] := .cons (hint _) (.cons (hint _) .nil)
  obtain ⟨v, h', hy, -, hv⟩ := slices_between_bounds (s := { start := some (-2), stop := some 10 }) (S := []) (h := {})
    (c := .bytes [104, 101, 121]) hg rfl hitems htags rfl rfl
  exact ⟨g, hg, hitems, v, h', hy, hv⟩

end NeoScript
