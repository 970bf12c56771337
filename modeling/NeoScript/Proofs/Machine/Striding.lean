import NeoScript.Proofs.Machine.Slicing

/-!
# Strides

A stride takes every `k`-th item of a slice, from its end if `k` is negative. The slice is cut first, as a sequence of its
own that can be turned round in place.

Of an array the other items are then removed, from the end on, so that the positions of the items before stay what they
are: behind position `i` only multiples of the step are left. Of bytes the ones to keep are collected: with the position
at a multiple `j` of the step, the first `j` of them are there.
-/

namespace NeoScript

open Generator Machine Slice List Snippet Heap

/-! ### Walks with a step -/

namespace Slice

variable {α : Type} {s : Slice} {k : Int}

/-- A sequence in the order in which it is walked. -/
def turned (k : Int) (xs : List α) : List α := if k < 0 then xs.reverse else xs

@[simp] lemma length_turned (k : Int) (xs : List α) : (turned k xs).length = xs.length := by
  unfold turned
  split_ifs
  · exact length_reverse
  · rfl

/-- Every `k`-th item, from the end if `k` is negative. -/
def every (k : Int) (xs : List α) : List α := picks k.natAbs xs.length (turned k xs)

/-- Where the block begins that the walk goes through. -/
def lower (s : Slice) (n : Nat) : Nat := if s.step < 0 then (s.last n + 1).toNat else (s.first n).toNat

/-- Where the block ends that the walk goes through. -/
def upper (s : Slice) (n : Nat) : Nat := if s.step < 0 then (s.first n + 1).toNat else (s.last n).toNat

lemma picks_long {k n : Nat} {xs : List α} (hk : 0 < k) (hn : xs.length ≤ n) : picks k n xs = picks k xs.length xs :=
  picks_of_length_le (Nat.le_mul_of_pos_right _ hk) hn

/-- **A slice is every `k`-th item of a block.** -/
lemma get_eq_every (hs : s.step ≠ 0) (xs : List α) :
    s.get xs = every s.step (block (s.lower xs.length) (s.upper xs.length) xs) := by
  have hk : 0 < s.step.natAbs := Int.natAbs_pos.2 hs
  unfold every turned lower upper
  rcases Int.lt_or_gt_of_ne hs with hneg | hpos
  · have hhi : (s.first xs.length + 1).toNat ≤ xs.length := by
      have := first_down (n := xs.length) hneg
      omega
    have hlength := length_block (s.last xs.length + 1).toNat hhi
    rw [if_pos hneg, if_pos hneg, if_pos hneg, get_down hneg, show (-s.step).toNat = s.step.natAbs by omega,
      picks_long hk (by rw [length_reverse, hlength]; omega), length_reverse]
  · have hhi : (s.last xs.length).toNat ≤ xs.length := by
      have := last_up (n := xs.length) hpos
      omega
    have hlength := length_block (s.first xs.length).toNat hhi
    have hup : ¬ s.step < 0 := by omega
    rw [if_neg hup, if_neg hup, if_neg hup, get_up hpos, show s.step.toNat = s.step.natAbs by omega,
      picks_long hk (by rw [hlength]; omega)]

lemma lower_bounds (hk : k ≠ 0) (n : Nat) (b b' : Int) :
    (⟨some b, some b', k⟩ : Slice).lower n = nearest n (if k < 0 then fromStart n b' + 1 else fromStart n b) := by
  unfold lower
  dsimp only
  split_ifs with hneg
  · exact toNat_place_down hneg b'
  · exact toNat_place_up (k := k) (by omega) b

lemma upper_bounds (hk : k ≠ 0) (n : Nat) (b b' : Int) :
    (⟨some b, some b', k⟩ : Slice).upper n = nearest n (if k < 0 then fromStart n b + 1 else fromStart n b') := by
  unfold upper
  dsimp only
  split_ifs with hneg
  · exact toNat_place_down hneg b
  · exact toNat_place_up (k := k) (by omega) b'

lemma lower_whole (k : Int) (n : Nat) : ({ step := k } : Slice).lower n = 0 := by
  unfold lower first last
  split_ifs <;> rfl

lemma upper_whole (k : Int) (n : Nat) : ({ step := k } : Slice).upper n = n := by
  unfold upper first last
  dsimp only
  split_ifs <;> omega

lemma fromStart_nonneg {n : Nat} {b : Int} (hb : 0 ≤ b) : 0 ≤ fromStart n b := by
  rwa [fromStart, if_neg (by omega)]

end Slice

namespace Machine.Contents

/-- Every `k`-th item or byte. -/
def every (k : Int) : Contents → Contents
  | items vs => items (Slice.every k vs)
  | bytes bs => bytes (Slice.every k bs)

/-- The kind of item that a stride of a type leaves. As long as no byte was taken, that is a byte string. -/
def strideKind (t : ValueType) : Contents → ItemType
  | items _ => .array
  | bytes bs => if t = .byteArray then (if bs = [] then .byteString else .buffer) else .byteString

lemma slice_eq_every {s : Slice} (hs : s.step ≠ 0) (content : Contents) :
    content.slice s = (content.block (s.lower content.length) (s.upper content.length)).every s.step := by
  cases content with
  | items vs => exact congrArg items (get_eq_every hs vs)
  | bytes bs => exact congrArg bytes (get_eq_every hs bs)

end Machine.Contents

/-! ### Snippets -/

namespace Snippet

variable {S T : List Value} {h h' : Heap} {c v : Value} {content : Contents} {k b b' : Int} {t start stop step : ValueType}
  {vs ys : List Value} {bs cs : Bytes} {lo hi a i j : Nat}

/-- The direction of the step: what is turned round is at `place`, in a heap that can hold it in both directions. -/
lemma yields_stepDirection {α : Type} {place : Value} {hold : List α → Heap} {xs : List α}
    (hturn : ∀ T, perform .reverseItems [] ⟨place :: T, hold xs⟩ = some ⟨T, hold xs.reverse⟩) :
    Yields stepDirection ⟨.int k :: place :: S, hold xs⟩ (some ⟨.int k.natAbs :: place :: S, hold (turned k xs)⟩) := by
  have hdup : Yields (ops [.dup, .push 0]) ⟨.int k :: place :: S, hold xs⟩
      (some ⟨.int 0 :: .int k :: .int k :: place :: S, hold xs⟩) := yields_ops rfl
  have hverdict : (verdict .ge).run ⟨.int 0 :: .int k :: .int k :: place :: S, hold xs⟩ =
      some (decide (0 ≤ k), ⟨.int k :: place :: S, hold xs⟩) := rfl
  have habs : Yields (op .abs) ⟨.int k :: place :: S, hold (turned k xs)⟩
      (some ⟨.int k.natAbs :: place :: S, hold (turned k xs)⟩) := .op rfl
  refine .append (.append hdup ?_) habs
  unfold turned
  split_ifs with hneg
  · rw [decide_eq_false (by omega)] at hverdict
    refine .passed hverdict (yields_ops ?_)
    change (perform .reverseItems [] ⟨place :: .int k :: place :: S, hold xs⟩).bind _ = _
    rw [hturn]
    rfl
  · rw [decide_eq_true (by omega)] at hverdict
    exact .skipped hverdict

/-! #### Arrays -/

/-- What is left of the items when those from position `i` on were sieved. -/
def sieved (a i : Nat) (ys : List Value) : List Value := ys.take i ++ sieve a i (ys.drop i)

lemma sieved_keep (hv : ys[j]? = some v) (hj : j % a = 0) : sieved a (j + 1) ys = sieved a j ys := by
  obtain ⟨hlt, rfl⟩ := List.getElem?_eq_some_iff.1 hv
  unfold sieved
  rw [drop_eq_getElem_cons hlt, sieve, if_pos hj, take_add_one, hv, Option.toList_some, append_assoc]
  rfl

lemma sieved_drop (hv : ys[j]? = some v) (hj : ¬ j % a = 0) : (sieved a (j + 1) ys).eraseIdx j = sieved a j ys := by
  obtain ⟨hlt, rfl⟩ := List.getElem?_eq_some_iff.1 hv
  have hlength : (ys.take j).length = j := length_take_of_le (le_of_lt hlt)
  unfold sieved
  rw [drop_eq_getElem_cons hlt, sieve, if_neg hj, take_add_one, hv, Option.toList_some, append_assoc,
    eraseIdx_append_of_length_le (le_of_eq hlength), hlength, Nat.sub_self]
  rfl

lemma length_sieved (hi : i ≤ ys.length) : i ≤ (sieved a i ys).length := by
  unfold sieved
  rw [length_append, length_take_of_le hi]
  exact Nat.le_add_right _ _

lemma perform_mod (ha : 0 < a) : perform .mod [] ⟨.int a :: .int j :: S, h⟩ = some ⟨.int (j % a : Nat) :: S, h⟩ := by
  refine perform_of_run (show (Action.division Int.tmod).run _ = _ from ?_)
  rw [Int.ofNat_tmod]
  simp [Action.division, Action.binary, ne_of_gt ha]

/-- The item at position `j` is removed unless it is at a multiple of the step. -/
lemma yields_sieveItem (ha : 0 < a) (hj : j < ys.length) :
    Yields (ops [.dup, .push 2, .pick, .mod] ++ skip .ifFalse (ops [.push 2, .pick, .dupBelow, .remove]) ++ op .dec)
      ⟨.int j :: .int a :: .array h.arrays.length :: S, h.addArray (sieved a (j + 1) ys)⟩
      (some ⟨.int (j - 1) :: .int a :: .array h.arrays.length :: S, h.addArray (sieved a j ys)⟩) := by
  have hv : ys[j]? = some ys[j] := getElem?_eq_getElem hj
  have hmod : Yields (ops [.dup, .push 2, .pick, .mod])
      ⟨.int j :: .int a :: .array h.arrays.length :: S, h.addArray (sieved a (j + 1) ys)⟩
      (some ⟨.int (j % a : Nat) :: .int j :: .int a :: .array h.arrays.length :: S, h.addArray (sieved a (j + 1) ys)⟩) := by
    refine yields_ops ?_
    change (perform .mod [] ⟨.int a :: .int j :: .int j :: .int a :: .array h.arrays.length :: S, _⟩).bind _ = _
    rw [perform_mod ha]
    rfl
  have hverdict : (verdict .ifFalse).run
      ⟨.int (j % a : Nat) :: .int j :: .int a :: .array h.arrays.length :: S, h.addArray (sieved a (j + 1) ys)⟩ =
      some (!((j % a : Nat) : Int) != 0, ⟨.int j :: .int a :: .array h.arrays.length :: S,
        h.addArray (sieved a (j + 1) ys)⟩) := rfl
  have hdec : Yields (op .dec) ⟨.int j :: .int a :: .array h.arrays.length :: S, h.addArray (sieved a j ys)⟩
      (some ⟨.int (j - 1) :: .int a :: .array h.arrays.length :: S, h.addArray (sieved a j ys)⟩) := .op rfl
  refine .append (.append hmod ?_) hdec
  by_cases hmul : j % a = 0
  · rw [← sieved_keep hv hmul]
    refine .skipped (hverdict.trans ?_)
    rw [hmul]
    rfl
  · have htrue : (!((j % a : Nat) : Int) != 0) = false := by
      rw [Bool.not_eq_eq_eq_not, Bool.not_false, bne_iff_ne]
      omega
    rw [htrue] at hverdict
    refine .passed hverdict (yields_ops ?_)
    change (perform .remove [] ⟨.int j :: .array h.arrays.length :: .int j :: .int a :: .array h.arrays.length :: S,
      h.addArray (sieved a (j + 1) ys)⟩).bind _ = _
    rw [perform_remove (h.array_addArray _) (length_sieved hj), h.setArray_addArray, sieved_drop hv hmul]
    rfl

/-- From position `i` down to the first, what is not at a multiple of the step is removed. -/
lemma yields_sieve (ha : 0 < a) (hi : i ≤ ys.length) :
    Yields (loop (ops [.dup, .push 2, .pick, .mod] ++ skip .ifFalse (ops [.push 2, .pick, .dupBelow, .remove]) ++ op .dec)
      (ops [.dup, .push 0]) .ge)
      ⟨.int (i - 1) :: .int a :: .array h.arrays.length :: S, h.addArray (sieved a i ys)⟩
      (some ⟨.int (-1) :: .int a :: .array h.arrays.length :: S, h.addArray (sieve a 0 ys)⟩) := by
  have htest : ∀ (l : Int) (h' : Heap), Yields (ops [.dup, .push 0]) ⟨.int l :: .int a :: .array h.arrays.length :: S, h'⟩
      (some ⟨.int 0 :: .int l :: .int l :: .int a :: .array h.arrays.length :: S, h'⟩) := fun l h' => yields_ops rfl
  induction i with
  | zero => exact .left (htest _ _) rfl
  | succ j ih =>
    have hpos : ((j + 1 : Nat) : Int) - 1 = j := by omega
    rw [hpos]
    exact .round (htest _ _) rfl (yields_sieveItem ha hi) (ih (Nat.le_of_succ_le hi))

/-- **Every `k`-th item of a new array** is left in it. -/
lemma yields_strideArray (hk : k ≠ 0) : Yields strideArray ⟨.int k :: .array h.arrays.length :: S, h.addArray ys⟩
      (some ⟨.array h.arrays.length :: S, h.addArray (every k ys)⟩) := by
  have ha : 0 < k.natAbs := Int.natAbs_pos.2 hk
  have hturn : ∀ T, perform .reverseItems [] ⟨.array h.arrays.length :: T, h.addArray ys⟩ =
      some ⟨T, h.addArray ys.reverse⟩ := by
    intro T
    rw [perform_reverseItems_array (h.array_addArray ys), h.setArray_addArray]
  have hturned := yields_stepDirection (S := S) (k := k) hturn
  have hlength : (turned k ys).length = ys.length := length_turned k ys
  have hsize : Yields (ops [.dupBelow, .size, .dec])
      ⟨.int k.natAbs :: .array h.arrays.length :: S, h.addArray (turned k ys)⟩
      (some ⟨.int ((turned k ys).length - 1) :: .int k.natAbs :: .array h.arrays.length :: S, h.addArray (turned k ys)⟩) := by
    refine yields_ops ?_
    change (perform .size [] ⟨.array h.arrays.length :: .int k.natAbs :: .array h.arrays.length :: S,
      h.addArray (turned k ys)⟩).bind _ = _
    rw [perform_size (contents?_items.2 ⟨_, rfl, h.array_addArray _⟩)]
    rfl
  have hsieve := yields_sieve (h := h) (S := S) ha (le_refl (turned k ys).length)
  have hwhole : sieved k.natAbs (turned k ys).length (turned k ys) = turned k ys := by
    rw [sieved, take_length, drop_length]
    exact append_nil _
  rw [hwhole, sieve_eq_picks ha (le_of_eq hlength)] at hsieve
  exact .append (.append (.append hturned hsize) hsieve) (yields_ops rfl)

/-! #### Bytes -/

/-- One more byte is collected. -/
lemma yields_collectByte {ref : Nat} {u : UInt8} (hr : h.bytes? (.buffer ref) = some bs) (hv : h.bytes? v = some cs)
    (hu : bs[i]? = some u) :
    ∃ w h', Yields (ops [.push 3, .pick, .push 2, .pick, .push 1, .subStr, .cat, .swap, .push 2, .pick, .add, .swap])
      ⟨v :: .int i :: .int a :: .buffer ref :: S, h⟩
      (some ⟨w :: .int (i + a : Nat) :: .int a :: .buffer ref :: S, h'⟩) ∧ h.Extends h' ∧ h'.bytes? w = some (cs ++ [u]) ∧
      w.itemType = .buffer := by
  obtain ⟨hlt, rfl⟩ := List.getElem?_eq_some_iff.1 hu
  have hcut : (bs.drop i).take 1 = [bs[i]] := by
    rw [take_one, head?_drop, hu]
    rfl
  have hsub := perform_subStr (S := v :: .int i :: .int a :: .buffer ref :: S) (n := 1) hr (Nat.succ_le_of_lt hlt)
  rw [hcut] at hsub
  have hext := Heap.Extends.addBuffer h [bs[i]]
  have hcat := perform_cat (S := .int i :: .int a :: .buffer ref :: S) (hext.bytes hv) (h.bytes_addBuffer [bs[i]])
  refine ⟨_, _, yields_ops ?_, hext.trans (.addBuffer _ _), bytes_addBuffer _ _, rfl⟩
  change (perform .subStr []
    ⟨.int (1 : Nat) :: .int i :: .buffer ref :: v :: .int i :: .int a :: .buffer ref :: S, h⟩).bind _ = _
  rw [hsub]
  change (perform .cat [] _).bind _ = _
  rw [hcat]
  rfl

/-- Whether there are bytes left to collect. -/
lemma yields_collectTest {ref : Nat} (hr : h.bytes? (.buffer ref) = some bs) :
    Yields (ops [.dupBelow, .push 4, .pick, .size, .lt]) ⟨v :: .int i :: .int a :: .buffer ref :: S, h⟩
      (some ⟨.bool (decide ((i : Int) < bs.length)) :: v :: .int i :: .int a :: .buffer ref :: S, h⟩) := by
  refine yields_ops ?_
  change (perform .size [] ⟨.buffer ref :: .int i :: v :: .int i :: .int a :: .buffer ref :: S, h⟩).bind _ = _
  rw [perform_size (contents?_bytes.2 hr)]
  rfl

/-- The bytes at multiples of the step are collected. -/
lemma yields_collect {ref : Nat} (ha : 0 < a) (hr : h.bytes? (.buffer ref) = some bs) (hv : h.bytes? v = some (picks a j bs))
    (hk : v.itemType = if picks a j bs = [] then .byteString else .buffer) (hj : j ≤ bs.length) :
    ∃ (w : Value) (l : Int) (h' : Heap),
      Yields (loop (ops [.push 3, .pick, .push 2, .pick, .push 1, .subStr, .cat, .swap, .push 2, .pick, .add, .swap])
        (ops [.dupBelow, .push 4, .pick, .size, .lt]) .ifTrue)
        ⟨v :: .int (j * a : Nat) :: .int a :: .buffer ref :: S, h⟩ (some ⟨w :: .int l :: .int a :: .buffer ref :: S, h'⟩) ∧
      h.Extends h' ∧ h'.bytes? w = some (picks a bs.length bs) ∧
        w.itemType = if picks a bs.length bs = [] then .byteString else .buffer := by
  -- Each round collects one more byte, and there are no more bytes to collect than there are.
  induction hn : bs.length - j using Nat.strong_induction_on generalizing j v h with | _ n ih =>
  have htest := yields_collectTest (S := S) (a := a) (i := j * a) (v := v) hr
  by_cases hlt : j * a < bs.length
  · have hu : bs[j * a]? = some bs[j * a] := getElem?_eq_getElem hlt
    obtain ⟨w, h1, hround, hext, hw, hwk⟩ := yields_collectByte (S := S) (a := a) hr hv hu
    have hnext : picks a j bs ++ [bs[j * a]] = picks a (j + 1) bs := by
      rw [picks_succ, hu]
      rfl
    rw [hnext] at hw
    have hmore : picks a (j + 1) bs ≠ [] := by simp [← hnext]
    have hj' : j < bs.length := Nat.lt_of_le_of_lt (Nat.le_mul_of_pos_right j ha) hlt
    obtain ⟨w', l, h2, hrest, hext', hw'⟩ := ih _ (by omega) (hext.bytes hr) hw (by rw [if_neg hmore, hwk]) hj' rfl
    rw [decide_eq_true (by exact_mod_cast hlt)] at htest
    rw [Nat.succ_mul] at hrest
    exact ⟨w', l, h2, .round htest rfl hround hrest, hext.trans hext', hw'⟩
  · rw [decide_eq_false (by omega)] at htest
    rw [← picks_of_length_le (Nat.le_of_not_lt hlt) hj] at hv hk
    exact ⟨v, _, h, .left htest rfl, .refl h, hv, hk⟩

/-- Bytes are copied to a buffer, which can be turned round. -/
lemma yields_toBuffer (t : ValueType) (hc : h.bytes? c = some bs) :
    Yields (if t = .byteArray then ops [.dup, .size, .left] else convert .buffer) ⟨c :: S, h⟩
      (some ⟨.buffer h.buffers.length :: S, h.addBuffer bs⟩) := by
  split_ifs
  · exact yields_copyBytes hc
  · exact .data (perform_convert_buffer hc)

/-- **Every `k`-th byte** is left in a new byte string or buffer. -/
lemma produces_strideBytes (t : ValueType) (hk : k ≠ 0) (hc : h.bytes? c = some bs) :
    Produces (strideBytes t) ⟨.int k :: c :: S, h⟩ S (.bytes (every k bs))
      (· = (Contents.bytes (every k bs)).strideKind t) := by
  have ha : 0 < k.natAbs := Int.natAbs_pos.2 hk
  have hturn : ∀ T, perform .reverseItems [] ⟨.buffer h.buffers.length :: T, h.addBuffer bs⟩ =
      some ⟨T, h.addBuffer bs.reverse⟩ := by
    intro T
    rw [perform_reverseItems_buffer (h.bytes_addBuffer bs), h.setBuffer_addBuffer]
  have hcopy : Yields (op .swap ++ (if t = .byteArray then ops [.dup, .size, .left] else convert .buffer) ++ op .swap)
      ⟨.int k :: c :: S, h⟩ (some ⟨.int k :: .buffer h.buffers.length :: S, h.addBuffer bs⟩) :=
    .append (.append (.op rfl) (yields_toBuffer t hc)) (.op rfl)
  have hturned := yields_stepDirection (S := S) (k := k) hturn
  have hnone : (h.addBuffer (turned k bs)).bytes? (.bytes []) = some (picks k.natAbs 0 (turned k bs)) := rfl
  obtain ⟨v, l, h', hcollect, hext, hv, hkind⟩ :=
    yields_collect (S := S) ha (h.bytes_addBuffer (turned k bs)) hnone rfl (Nat.zero_le _)
  rw [zero_mul] at hcollect
  rw [length_turned] at hv hkind
  obtain ⟨w, hresult, hw, hwk⟩ := yields_byteResult (t := t) (S := S) hv
  rw [hkind] at hwk
  refine ⟨w, h', ?_, (Heap.Extends.addBuffer h _).trans hext, contents?_bytes.2 hw, hwk⟩
  exact .append (.append (.append (.append (.append (.append hcopy hturned) (.op rfl)) (.data rfl)) hcollect)
    (yields_ops rfl)) hresult

/-! #### Slices with a step -/

lemma Produces.assoc {a b c : Snippet} {m : Operands} {P : ItemType → Prop} (hp : Produces (a ++ (b ++ c)) m S content P) :
    Produces (a ++ b ++ c) m S content P := by
  obtain ⟨v, h', hy, he, hv⟩ := hp
  exact ⟨v, h', hy.assoc, he, hv⟩

/-- The whole sequence is walked through. -/
lemma produces_stride (hk : k ≠ 0) (ht : content.fits t = true) (hc : h.contents? c = some content) :
    Produces (stride t) ⟨.int k :: c :: S, h⟩ S (content.every k) (· = (content.every k).strideKind t) := by
  unfold stride strideOf guarded
  cases content with
  | items vs =>
    obtain ⟨ref, rfl, hr⟩ := contents?_items.1 hc
    have hbytes := not_byteLike_of_fits ht
    rw [if_neg hbytes, if_pos (by simpa using hbytes)]
    have hcopy : Yields (op .swap ++ copy t ++ op .swap) ⟨.int k :: .array ref :: S, h⟩
        (some ⟨.int k :: .array h.arrays.length :: S, h.addArray vs⟩) :=
      .append (.append (.op rfl) (yields_copy_items ht hr)) (.op rfl)
    exact (hcopy.append (yields_strideArray hk)).produces_items
  | bytes bs =>
    have hbytes := byteLike_of_fits ht
    rw [if_pos hbytes, if_neg (by simpa using hbytes)]
    exact Yields.nil.produces (produces_strideBytes t hk (contents?_bytes.1 hc))

/-- A block is cut out and walked through. -/
lemma produces_strideBlock (hk : k ≠ 0) (ht : content.fits t = true) (hc : h.contents? c = some content)
    (hlo : lo ≤ content.length) (hhi : hi ≤ content.length) :
    Produces (sliceBounded t ++ (op .swap ++ strideOf t)) ⟨.int hi :: .int lo :: c :: .int k :: S, h⟩ S
      ((content.block lo hi).every k) (· = ((content.block lo hi).every k).strideKind t) := by
  cases content with
  | items vs =>
    obtain ⟨ref, rfl, hr⟩ := contents?_items.1 hc
    have hbytes := not_byteLike_of_fits ht
    rw [sliceBounded, strideOf, if_neg hbytes, if_neg hbytes]
    have hcut : Yields sliceArray ⟨.int hi :: .int lo :: .array ref :: .int k :: S, h⟩
        (some ⟨.array h.arrays.length :: .int k :: S, h.addArray (Slice.block lo hi vs)⟩) := yields_sliceArray hr hhi
    exact (hcut.append (.append (.op rfl) (yields_strideArray hk))).produces_items
  | bytes bs =>
    obtain ⟨v, h1, hcut, hext, hv, -⟩ := produces_sliceBounded (S := .int k :: S) ht hc hlo hhi
    have hwalk := produces_strideBytes (S := S) t hk (contents?_bytes.1 hv)
    obtain ⟨w, h2, hy, hext', hw⟩ := hwalk
    rw [strideOf, if_pos (byteLike_of_fits ht)]
    exact ⟨w, h2, hcut.append (.append (.op rfl) hy), hext.trans hext', hw⟩

/-- A walk down from `b` to `b'` goes through the block from `b' + 1` to `b + 1`. -/
lemma yields_direction (hstep : step.Admits k) :
    Yields (guarded (mayBeNegative step) (ops [.push 3, .pick, .push 0] ++ skip .ge (ops [.inc, .swap, .inc])))
      ⟨.int b' :: .int b :: c :: .int k :: S, h⟩
      (some ⟨.int (if k < 0 then b + 1 else b') :: .int (if k < 0 then b' + 1 else b) :: c :: .int k :: S, h⟩) := by
  have htest : Yields (ops [.push 3, .pick, .push 0]) ⟨.int b' :: .int b :: c :: .int k :: S, h⟩
      (some ⟨.int 0 :: .int k :: .int b' :: .int b :: c :: .int k :: S, h⟩) := yields_ops rfl
  have hverdict : (verdict .ge).run ⟨.int 0 :: .int k :: .int b' :: .int b :: c :: .int k :: S, h⟩ =
      some (decide (0 ≤ k), ⟨.int b' :: .int b :: c :: .int k :: S, h⟩) := rfl
  unfold guarded mayBeNegative
  by_cases hneg : k < 0
  · have htag : (step != .nonNegInt) = true := bne_iff_ne.2 fun h => absurd (hstep h) (by omega)
    rw [decide_eq_false (by omega)] at hverdict
    rw [if_pos hneg, if_pos hneg, if_pos htag]
    exact htest.append (.passed hverdict (yields_ops rfl))
  · rw [decide_eq_true (by omega)] at hverdict
    rw [if_neg hneg, if_neg hneg]
    split_ifs
    · exact htest.append (.skipped hverdict)
    · exact .nil

/-- The type that the bounds have together promises no more than each of them. -/
lemma admits_bounds (hstart : start.Admits b) (hstop : stop.Admits b') {i : Int} (hi : 0 ≤ b → 0 ≤ b' → 0 ≤ i) :
    (if mayBeNegative start || mayBeNegative stop then ValueType.int else .nonNegInt).Admits i := by
  intro hbounds
  split_ifs at hbounds with hneg
  rw [Bool.not_eq_true, Bool.or_eq_false_iff] at hneg
  exact hi (hstart (by simpa [mayBeNegative] using hneg.1)) (hstop (by simpa [mayBeNegative] using hneg.2))

lemma produces_sliceStride (hk : k ≠ 0) (hstart : start.Admits b) (hstop : stop.Admits b') (hstep : step.Admits k)
    (ht : content.fits t = true) (hc : h.contents? c = some content) :
    Produces (sliceStride t start stop step) ⟨.int k :: .int b' :: .int b :: c :: S, h⟩ S
      (content.slice ⟨some b, some b', k⟩) (· = (content.slice ⟨some b, some b', k⟩).strideKind t) := by
  rw [Contents.slice_eq_every hk, lower_bounds hk, upper_bounds hk]
  have hnonneg : 0 ≤ b → 0 ≤ b' →
      0 ≤ (if k < 0 then fromStart content.length b + 1 else fromStart content.length b') ∧
      0 ≤ (if k < 0 then fromStart content.length b' + 1 else fromStart content.length b) := by
    intro hb hb'
    have hfirst := fromStart_nonneg (n := content.length) hb
    have hlast := fromStart_nonneg (n := content.length) hb'
    constructor <;> split_ifs <;> omega
  have horder : Yields (ops [.reverse4, .reverse3]) ⟨.int k :: .int b' :: .int b :: c :: S, h⟩
      (some ⟨.int b' :: .int b :: c :: .int k :: S, h⟩) := yields_ops rfl
  have hlast := yields_fixBound (S := .int b :: c :: .int k :: S) (d := 2) hstop rfl hc
  have hfirst := yields_fixBound (S := .int (fromStart content.length b') :: c :: .int k :: S) (d := 2) hstart rfl hc
  have hdirection : Yields _ ⟨.int (fromStart content.length b') :: .int (fromStart content.length b) :: c :: .int k :: S, h⟩ _ :=
    yields_direction hstep
  generalize (if k < 0 then fromStart content.length b + 1 else fromStart content.length b') = e at *
  generalize (if k < 0 then fromStart content.length b' + 1 else fromStart content.length b) = s at *
  have hupper := yields_clampFixed (S := .int s :: c :: .int k :: S) (d := 2) (n := 1)
    (admits_bounds hstart hstop fun hb hb' => (hnonneg hb hb').1) rfl rfl hc
  have hlower := yields_clampFixed (S := .int (nearest content.length e) :: c :: .int k :: S) (d := 2) (n := 1)
    (admits_bounds hstart hstop fun hb hb' => (hnonneg hb hb').2) rfl rfl hc
  have hwalk := produces_strideBlock (S := S) hk ht hc (nearest_le _ s) (nearest_le _ e)
  have hswap : ∀ v w T, Yields (op .swap) ⟨v :: w :: T, h⟩ (some ⟨w :: v :: T, h⟩) := fun _ _ _ => .op rfl
  have hfixed := ((((horder.append hlast).append (hswap _ _ _)).append hfirst).append (hswap _ _ _)).append hdirection
  have hcut := (((hfixed.append hupper).append (hswap _ _ _)).append hlower).append (hswap _ _ _)
  exact .assoc (.assoc (hcut.produces hwalk))

end Snippet

/-! ### The operations -/

/-- The command for a slice with a step: there is one for slices with both bounds and one for slices with none. -/
def Slice.strideCommand? (s : Slice) : Option Command :=
  match s.start, s.stop with
  | some _, some _ => some .sliceStride
  | none, none => some .stride
  | _, _ => none

lemma Underway.replaces_stride {g : Generator} {s : Slice} {cmd : Command} {t : ValueType} {tags ts : List ValueType}
    {c : Value}
    {content : Contents} {S : List Value} {h : Heap} (hg : Underway g) (hs : s.step ≠ 0) (hcmd : s.strideCommand? = some cmd)
    (hitems : g.stack.items = tags ++ t :: ts) (htags : Forall₂ ValueType.Admits tags (s.step :: s.bounds))
    (ht : content.fits t = true) (hc : h.contents? c = some content) :
    Emission.Replaces cmd.run g tags.length ⟨(s.step :: s.bounds).map .int ++ c :: S, h⟩ S (content.slice s)
      fun t k => k = (content.slice s).strideKind t := by
  obtain ⟨start, stop, k⟩ := s
  obtain ⟨step, tags', hstep, hbounds, rfl⟩ := forall₂_cons_right_iff.1 htags
  unfold Slice.strideCommand? at hcmd
  split at hcmd
  · next b b' hstart hstop =>
    obtain rfl : start = some b := hstart
    obtain rfl : stop = some b' := hstop
    obtain ⟨tag', _, hb', hrest, rfl⟩ := forall₂_cons_right_iff.1 hbounds
    obtain ⟨tag, _, hb, hnil, rfl⟩ := forall₂_cons_right_iff.1 hrest
    obtain rfl := forall₂_nil_right_iff.1 hnil
    cases hcmd
    refine hg.replaceSlice (by rwa [peek_of_items hitems]) (fun t => proper_sliceStride t _ _ _) fun t ht => ?_
    rw [peek_of_items hitems, peek_of_items hitems, peek_of_items hitems]
    exact produces_sliceStride hs hb hb' hstep ht hc
  · next hstart hstop =>
    obtain rfl : start = none := hstart
    obtain rfl : stop = none := hstop
    obtain rfl := forall₂_nil_right_iff.1 hbounds
    cases hcmd
    refine hg.replaceSlice (by rwa [peek_of_items hitems]) (fun t => proper_stride t) fun t ht => ?_
    rw [Contents.slice_eq_every hs, lower_whole, upper_whole, content.block_whole]
    exact produces_stride hs ht hc
  · cases hcmd

/-- **Strides.** Whatever the bounds and the step are, other than a step of zero, and whatever their types, the code never
faults and leaves the items or bytes on the walk in their order. The sequence and what else there is stay as they are. -/
theorem strides_along_walk {g : Generator} {s : Slice} {cmd : Command} {t : ValueType} {tags ts : List ValueType} {c : Value}
    {content : Contents} {S : List Value} {h : Heap} (hg : Underway g) (hs : s.step ≠ 0) (hcmd : s.strideCommand? = some cmd)
    (hitems : g.stack.items = tags ++ t :: ts) (htags : List.Forall₂ ValueType.Admits tags (s.step :: s.bounds))
    (ht : content.fits t = true) (hc : h.contents? c = some content) :
    ∃ v h', Emission.Yields cmd.run g ⟨(s.step :: s.bounds).map .int ++ c :: S, h⟩ (some ⟨v :: S, h'⟩) ∧ h.Extends h' ∧
      h'.contents? v = some (content.slice s) := by
  obtain ⟨_, _, -, -, -, v, h', hy, he, hv, -⟩ := hg.replaces_stride (S := S) hs hcmd hitems htags ht hc
  exact ⟨v, h', hy, he, hv⟩

/-- Every second item of a list, from a place behind its end down to the first but one. -/
theorem strides_along_walk_list :
    ∃ g, Underway g ∧ g.stack.items = [.int, .int, .int, .list .int] ∧
      ∃ v h', Emission.Yields (Command.run .sliceStride) g ⟨[.int (-2), .int (-4), .int 9, .array 0], threeNumbers⟩ (some ⟨[v], h'⟩) ∧
        threeNumbers.Extends h' ∧ h'.contents? v = some (.items [.int 7, .int 5]) := by
  have hstride : typesAfter sequencesAndNumbers "main" [.load "xs", .load "i", .load "j", .load "k"] =
      some [.int, .int, .int, .list .int] := by decide +kernel
  obtain ⟨g, hg, hitems⟩ := underway_typesAfter hstride
  have hint : ∀ i : Int, ValueType.int.Admits i := fun _ h => by cases h
  have htags : List.Forall₂ ValueType.Admits [.int, .int, .int] [-2, -4, 9] := .cons (hint _) (.cons (hint _) (.cons (hint _) .nil))
  obtain ⟨v, h', hy, he, hv⟩ := strides_along_walk (s := { start := some 9, stop := some (-4), step := -2 }) (S := []) (h := threeNumbers)
    (c := .array 0) hg (by decide) rfl hitems htags rfl rfl
  exact ⟨g, hg, hitems, v, h', hy, he, hv⟩

end NeoScript
