import NeoScript.Proofs.Generator.Items
import NeoScript.Proofs.Machine.Contents

/-!
# Indexes

A negative index counts from the end of its collection, and an index outside of the collection makes the machine fault.
The machine itself knows neither of negative indexes, so each use of an index that may be negative is preceded by code
that corrects it.
-/

namespace NeoScript

open Generator Machine Snippet List Heap Action Emission

/-- The position that an index means in a sequence of `n` items. -/
def position? (n : Nat) (i : Int) : Option Nat :=
  if 0 ≤ i ∧ i < n then some i.toNat else if -n ≤ i ∧ i < 0 then some (n + i).toNat else none

/-- The type of a number does not promise too much. -/
def ValueType.Admits (t : ValueType) (i : Int) : Prop := t = .nonNegInt → 0 ≤ i

namespace Snippet

variable {S : List Value} {h : Heap} {c v : Value} {content : Contents} {i : Int} {d : Fin 17} {t : ValueType}

lemma yields_pick (hv : S[d.val]? = some v) : Yields (pick d) ⟨S, h⟩ (some ⟨v :: S, h⟩) := by
  have hcopy : ∀ n : Nat, S[n]? = some v → (Action.copy n).run ⟨S, h⟩ = some ((), ⟨v :: S, h⟩) := fun n hn => by
    simp [Action.copy, hn]
  unfold pick
  split_ifs with h0 h1
  · exact .op (perform_of_run (hcopy 0 (by rw [h0] at hv; exact hv)))
  · exact .op (perform_of_run (hcopy 1 (by rw [h1] at hv; exact hv)))
  · refine .append (.op rfl) (.append (.op (perform_of_run ?_)) .nil)
    exact hcopy d.val hv

/-- **A negative index is corrected**, whatever stands between it and the collection. -/
lemma yields_fixIndex (hc : (.int i :: S)[d.val]? = some c) (hcontent : h.contents? c = some content) :
    Yields (fixIndex d) ⟨.int i :: S, h⟩ (some ⟨.int (Slice.fromStart content.length i) :: S, h⟩) := by
  have htest : Yields (ops [.dup, .sign, .pushMinusOne]) ⟨.int i :: S, h⟩
      (some ⟨.int (-1) :: .int i.sign :: .int i :: S, h⟩) := yields_ops rfl
  have hverdict : (verdict .ne).run ⟨.int (-1) :: .int i.sign :: .int i :: S, h⟩ = some (i.sign != -1, ⟨.int i :: S, h⟩) := rfl
  refine htest.append ?_
  unfold Slice.fromStart
  split_ifs with hneg
  · have hsign : (i.sign != -1) = false := by rw [Int.sign_eq_neg_one_of_neg hneg]; rfl
    refine .passed (hverdict.trans (by rw [hsign])) (.append (yields_pick hc) (yields_ops ?_))
    rw [performAll, perform_size hcontent]
    rfl
  · have hsign : (i.sign != -1) = true := bne_iff_ne.2 fun he => hneg (Int.sign_eq_neg_one_iff_neg.1 he)
    exact .skipped (hverdict.trans (by rw [hsign]))

/-- A bound is corrected, if it may be negative. -/
lemma yields_fixBound (ht : t.Admits i) (hc : (.int i :: S)[d.val]? = some c) (hcontent : h.contents? c = some content) :
    Yields (fixBound t d) ⟨.int i :: S, h⟩ (some ⟨.int (Slice.fromStart content.length i) :: S, h⟩) := by
  unfold fixBound guarded mayBeNegative
  split_ifs with hneg
  · exact yields_fixIndex hc hcontent
  · have hle : 0 ≤ i := ht (by simpa using hneg)
    rw [Slice.fromStart, if_neg (by omega)]
    exact .nil

end Snippet

/-! ### Positions -/

lemma position?_eq_some {n p : Nat} {i : Int} : position? n i = some p ↔ Slice.fromStart n i = p ∧ p < n := by
  unfold position? Slice.fromStart
  split_ifs <;> simp <;> omega

lemma position?_eq_none {n : Nat} {i : Int} :
    position? n i = none ↔ Slice.fromStart n i < 0 ∨ (n : Int) ≤ Slice.fromStart n i := by
  unfold position? Slice.fromStart
  split_ifs <;> simp <;> omega

/-- An index outside of a sequence is negative also when it is corrected, or behind the end. -/
lemma out_of_range {n : Nat} {i : Int} (hi : position? n i = none) :
    (∃ k : Nat, Slice.fromStart n i = Int.negSucc k) ∨ ∃ k : Nat, Slice.fromStart n i = k ∧ n ≤ k := by
  rcases position?_eq_none.1 hi with hneg | hle
  · exact .inl ((Int.eq_negSucc_of_lt_zero hneg).imp fun _ h => h)
  · obtain ⟨k, hk⟩ := Int.eq_ofNat_of_zero_le (Int.le_trans (Int.natCast_nonneg n) hle)
    exact .inr ⟨k, hk, by omega⟩

namespace Machine

variable {S : List Value} {h : Heap} {c v : Value} {content : Contents} {i k : Nat} {vs : List Value} {bs : Bytes} {ref : Nat}

/-- The item at a position, in a collection of a type: the items of a string are strings. -/
def Contents.item? (t : ValueType) (p : Nat) : Contents → Option Value
  | items vs => vs[p]?
  | bytes bs => bs[p]?.map fun b => if t = .str then .bytes [b] else .int b.toNat

lemma perform_pickItem_byte {b : UInt8} (hc : h.bytes? c = some bs) (hi : bs[i]? = some b) :
    perform .pickItem [] ⟨.int i :: c :: S, h⟩ = some ⟨.int b.toNat :: S, h⟩ := by
  refine perform_of_run (show pickItem.run _ = _ from ?_)
  cases c with
  | array ref | map ref => cases hc
  | _ => simp [pickItem, hc, hi]

lemma perform_pickItem_behind (hc : h.contents? c = some content) (hk : content.length ≤ k) :
    perform .pickItem [] ⟨.int k :: c :: S, h⟩ = none := by
  refine congrArg (Option.map Prod.snd) (show pickItem.run _ = none from ?_)
  cases content with
  | items vs =>
    obtain ⟨ref, rfl, hr⟩ := contents?_items.1 hc
    simp [pickItem, hr, getElem?_eq_none hk]
  | bytes bs =>
    have hb := contents?_bytes.1 hc
    cases c with
    | array ref | map ref => cases hb
    | _ => simp [pickItem, hb, getElem?_eq_none hk]

lemma perform_pickItem_negative (hc : h.contents? c = some content) :
    perform .pickItem [] ⟨.int (Int.negSucc k) :: c :: S, h⟩ = none := by
  cases c with
  | map ref => cases hc
  | _ => rfl

lemma perform_subStr_behind {n : Nat} (hc : h.bytes? c = some bs) (hk : bs.length < k + n) :
    perform .subStr [] ⟨.int n :: .int k :: c :: S, h⟩ = none := by
  refine congrArg (Option.map Prod.snd) (show subStr.run _ = none from ?_)
  simp [subStr, run_popBytes hc, not_le.2 hk]

lemma perform_remove_behind (hr : h.arrays[ref]? = some vs) (hk : vs.length ≤ k) :
    perform .remove [] ⟨.int k :: .array ref :: S, h⟩ = none := by
  refine congrArg (Option.map Prod.snd) (show remove.run _ = none from ?_)
  simp [remove, run_popArray hr, not_lt.2 hk]

lemma perform_setItem (hr : h.arrays[ref]? = some vs) (hi : i < vs.length) :
    perform .setItem [] ⟨v :: .int i :: .array ref :: S, h⟩ = some ⟨S, h.setArray ref (vs.set i v)⟩ :=
  perform_of_run (show Action.setItem.run _ = _ by simp [Action.setItem, hr, hi])

lemma perform_setItem_behind (hr : h.arrays[ref]? = some vs) (hk : vs.length ≤ k) :
    perform .setItem [] ⟨v :: .int k :: .array ref :: S, h⟩ = none := by
  refine congrArg (Option.map Prod.snd) (show Action.setItem.run _ = none from ?_)
  simp [Action.setItem, hr, not_lt.2 hk]

end Machine

/-! ### The code of accesses -/

namespace Snippet

/-- `[c, i] → [c[i]]`. -/
def getItem (collection index : ValueType) : Snippet :=
  fixBound index 1 ++ if collection = .str then ops [.push 1, .subStr] ++ convert .byteString else op .pickItem

/-- `[c, i, v] → []`, with `v` at `c[i]`. The value is out of the way while the index is corrected. -/
def setItem (index : ValueType) : Snippet :=
  if mayBeNegative index then op .swap ++ (fixIndex 2 ++ (op .swap ++ op .setItem)) else op .setItem

/-- `[c, i] → []`, without `c[i]`. -/
def deleteItem (index : ValueType) : Snippet := fixBound index 1 ++ op .remove

/-- `[c, i] → [c[i]]`, and `c` is without it. -/
def popIndex (index : ValueType) : Snippet :=
  fixBound index 1 ++ ops [.dupBelow, .dupBelow, .pickItem, .reverse3, .swap, .remove]

variable {S : List Value} {h : Heap} {c v : Value} {content : Contents} {i : Int} {t index : ValueType}
  {vs : List Value} {p : Nat}
  {ref : Nat} {d : Fin 17}

/-- The index of an item is corrected to its position. -/
lemma yields_position (hi : index.Admits i) (hd : (.int i :: S)[d.val]? = some c) (hc : h.contents? c = some content)
    (hp : position? content.length i = some p) : Yields (fixBound index d) ⟨.int i :: S, h⟩ (some ⟨.int p :: S, h⟩) := by
  have hfix := yields_fixBound hi hd hc
  rwa [(position?_eq_some.1 hp).1] at hfix

/-- An index that means no item is corrected to something that an instruction refuses. -/
lemma yields_no_position {r : Snippet} (hi : index.Admits i) (hd : (.int i :: S)[d.val]? = some c)
    (hc : h.contents? c = some content) (hp : position? content.length i = none)
    (hneg : ∀ k, Yields r ⟨.int (Int.negSucc k) :: S, h⟩ none)
    (hbehind : ∀ k : Nat, content.length ≤ k → Yields r ⟨.int k :: S, h⟩ none) :
    Yields (fixBound index d ++ r) ⟨.int i :: S, h⟩ none := by
  have hfix := yields_fixBound hi hd hc
  rcases out_of_range hp with ⟨k, hk⟩ | ⟨k, hk, hle⟩
  · rw [hk] at hfix
    exact hfix.append (hneg k)
  · rw [hk] at hfix
    exact hfix.append (hbehind k hle)

lemma yields_getItem (hi : index.Admits i) (ht : content.fits t = true) (hc : h.contents? c = some content)
    (hp : position? content.length i = some p) :
    ∃ v h', Yields (getItem t index) ⟨.int i :: c :: S, h⟩ (some ⟨v :: S, h'⟩) ∧ h.Extends h' ∧
      content.item? t p = some v := by
  have hindex := yields_position (S := c :: S) (d := 1) hi rfl hc hp
  have hlt := (position?_eq_some.1 hp).2
  unfold getItem
  cases content with
  | items vs =>
    obtain ⟨ref, rfl, hr⟩ := contents?_items.1 hc
    have hstr : t ≠ .str := by
      rintro rfl
      cases ht
    have hitem : vs[p]? = some vs[p] := getElem?_eq_getElem hlt
    rw [if_neg hstr]
    exact ⟨vs[p], h, hindex.append (.op (perform_pickItem hr hitem)), .refl h, hitem⟩
  | bytes bs =>
    have hb := contents?_bytes.1 hc
    have hitem : bs[p]? = some bs[p] := getElem?_eq_getElem hlt
    by_cases hstr : t = .str
    · rw [if_pos hstr]
      have hcut : (bs.drop p).take 1 = [bs[p]] := by
        rw [take_one, head?_drop, hitem]
        rfl
      have hsub : Yields (ops [.push 1, .subStr]) ⟨.int p :: c :: S, h⟩
          (some ⟨.buffer h.buffers.length :: S, h.addBuffer [bs[p]]⟩) := by
        refine yields_ops ?_
        have hperform := perform_subStr (S := S) (n := 1) hb (Nat.succ_le_of_lt hlt)
        rw [hcut] at hperform
        change (perform .subStr [] ⟨.int (1 : Nat) :: .int p :: c :: S, h⟩).bind _ = _
        rw [hperform]
        rfl
      have hconvert : Yields (convert .byteString) ⟨.buffer h.buffers.length :: S, h.addBuffer [bs[p]]⟩
          (some ⟨.bytes [bs[p]] :: S, h.addBuffer [bs[p]]⟩) :=
        .data (perform_convert_byteString (bytes_addBuffer h _))
      refine ⟨.bytes [bs[p]], _, hindex.append (hsub.append hconvert), .addBuffer h _, ?_⟩
      rw [Contents.item?, hitem, Option.map_some, if_pos hstr]
    · rw [if_neg hstr]
      refine ⟨.int bs[p].toNat, h, hindex.append (.op (perform_pickItem_byte hb hitem)), .refl h, ?_⟩
      rw [Contents.item?, hitem, Option.map_some, if_neg hstr]

lemma yields_getItem_none (hi : index.Admits i) (ht : content.fits t = true) (hc : h.contents? c = some content)
    (hp : position? content.length i = none) : Yields (getItem t index) ⟨.int i :: c :: S, h⟩ none := by
  refine yields_no_position (S := c :: S) (d := 1) hi rfl hc hp (fun k => ?_) fun k hk => ?_
  · split_ifs
    · exact .seqFault (yields_ops_fault (by decide) rfl)
    · exact .opFault rfl (perform_pickItem_negative hc)
  · split_ifs with hstr
    · subst hstr
      cases content with
      | items vs => cases ht
      | bytes bs =>
        have hb := contents?_bytes.1 hc
        refine .seqFault (yields_ops_fault (by decide) ?_)
        change (perform .subStr [] ⟨.int (1 : Nat) :: .int k :: c :: S, h⟩).bind _ = _
        rw [perform_subStr_behind hb (Nat.lt_succ_of_le hk)]
        rfl
    · exact .opFault rfl (perform_pickItem_behind hc hk)

/-- The index below the value is corrected before the item is stored. -/
lemma yields_fixBelow {r : Option Operands} {j : Int} (hi : index.Admits i) (hc : h.contents? c = some content)
    (hj : Slice.fromStart content.length i = j) (hset : Yields (op .setItem) ⟨v :: .int j :: c :: S, h⟩ r) :
    Yields (setItem index) ⟨v :: .int i :: c :: S, h⟩ r := by
  unfold setItem mayBeNegative
  split_ifs with hneg
  · have hswap : Yields (op .swap) ⟨v :: .int i :: c :: S, h⟩ (some ⟨.int i :: v :: c :: S, h⟩) := .op rfl
    have hfix := yields_fixIndex (S := v :: c :: S) (d := 2) (i := i) rfl hc
    rw [hj] at hfix
    have hback : Yields (op .swap) ⟨.int j :: v :: c :: S, h⟩ (some ⟨v :: .int j :: c :: S, h⟩) := .op rfl
    exact hswap.append (hfix.append (hback.append hset))
  · have hle : 0 ≤ i := hi (by simpa using hneg)
    rw [Slice.fromStart, if_neg (by omega)] at hj
    exact hj ▸ hset

variable (hi : index.Admits i) (hr : h.arrays[ref]? = some vs)
include hi hr

lemma yields_setItem (hp : position? vs.length i = some p) :
    Yields (setItem index) ⟨v :: .int i :: .array ref :: S, h⟩ (some ⟨S, h.setArray ref (vs.set p v)⟩) := by
  obtain ⟨hfix, hlt⟩ := position?_eq_some.1 hp
  have hc : h.contents? (.array ref) = some (.items vs) := contents?_items.2 ⟨ref, rfl, hr⟩
  exact yields_fixBelow hi hc hfix (.op (perform_setItem hr hlt))

lemma yields_setItem_none (hp : position? vs.length i = none) :
    Yields (setItem index) ⟨v :: .int i :: .array ref :: S, h⟩ none := by
  have hc : h.contents? (.array ref) = some (.items vs) := contents?_items.2 ⟨ref, rfl, hr⟩
  rcases out_of_range hp with ⟨k, hk⟩ | ⟨k, hk, hle⟩
  · exact yields_fixBelow hi hc hk (.opFault rfl rfl)
  · exact yields_fixBelow hi hc hk (.opFault rfl (perform_setItem_behind hr hle))

lemma yields_deleteItem (hp : position? vs.length i = some p) :
    Yields (deleteItem index) ⟨.int i :: .array ref :: S, h⟩ (some ⟨S, h.setArray ref (vs.eraseIdx p)⟩) := by
  have hc : h.contents? (.array ref) = some (.items vs) := contents?_items.2 ⟨ref, rfl, hr⟩
  have hindex := yields_position (S := .array ref :: S) (d := 1) hi rfl hc hp
  exact hindex.append (.op (perform_remove hr (position?_eq_some.1 hp).2))

lemma yields_deleteItem_none (hp : position? vs.length i = none) :
    Yields (deleteItem index) ⟨.int i :: .array ref :: S, h⟩ none := by
  have hc : h.contents? (.array ref) = some (.items vs) := contents?_items.2 ⟨ref, rfl, hr⟩
  exact yields_no_position (S := .array ref :: S) (d := 1) hi rfl hc hp (fun _ => .opFault rfl rfl) fun _ hk =>
    .opFault rfl (perform_remove_behind hr hk)

lemma yields_popIndex (hp : position? vs.length i = some p) (hv : vs[p]? = some v) :
    Yields (popIndex index) ⟨.int i :: .array ref :: S, h⟩ (some ⟨v :: S, h.setArray ref (vs.eraseIdx p)⟩) := by
  have hc : h.contents? (.array ref) = some (.items vs) := contents?_items.2 ⟨ref, rfl, hr⟩
  have hindex := yields_position (S := .array ref :: S) (d := 1) hi rfl hc hp
  refine hindex.append (yields_ops ?_)
  change (perform .pickItem [] ⟨.int p :: .array ref :: .int p :: .array ref :: S, h⟩).bind _ = _
  rw [perform_pickItem hr hv]
  change (perform .remove [] ⟨.int p :: .array ref :: v :: S, h⟩).bind _ = _
  rw [perform_remove hr (position?_eq_some.1 hp).2]
  rfl

lemma yields_popIndex_none (hp : position? vs.length i = none) :
    Yields (popIndex index) ⟨.int i :: .array ref :: S, h⟩ none := by
  have hc : h.contents? (.array ref) = some (.items vs) := contents?_items.2 ⟨ref, rfl, hr⟩
  refine yields_no_position (S := .array ref :: S) (d := 1) hi rfl hc hp (fun k => yields_ops_fault (by decide) rfl)
    fun k hk => yields_ops_fault (by decide) ?_
  change (perform .pickItem [] ⟨.int k :: .array ref :: .int k :: .array ref :: S, h⟩).bind _ = _
  rw [perform_pickItem_behind hc hk]
  rfl

end Snippet

/-! ### The operations -/

namespace Generator

variable {g : Generator} {t index value : ValueType} {ts : List ValueType}

lemma peek_of_items {s : ShadowStack} {items : List ValueType} (hs : s.items = items) (n : Nat) :
    s.peek n = (items[n]?).getD .any := by
  rw [ShadowStack.peek, hs]

lemma items_emitSnippet (g : Generator) (s : Snippet) : (g.emitSnippet s).stack.items = g.stack.items :=
  (congrArg (fun c : Generator => c.stack.items) (Sound.context_emitSnippet g s) :)

lemma prints_fixNegativeIndex (hl : Legible g) (hitems : g.stack.items = index :: ts) {n : Nat} (d : Fin 17) (hd : d.val = n) :
    ∃ g' index', Prints (fixNegativeIndex n) (.fixBound index d) g g' ∧ g'.stack.items = index' :: ts := by
  subst hd
  have hpeek : g.stack.peek 0 = index := peek_of_items hitems 0
  have hrun : fixNegativeIndex d.val = MonadState.get >>= fun g0 => if g0.stack.peek 0 ≠ .nonNegInt then
      modify fun g => (g.emitSnippet (.fixIndex d)).settle 1 .int else pure () := by
    unfold fixNegativeIndex
    rw [dif_pos d.isLt]
  rw [hrun]
  by_cases hneg : index = .nonNegInt
  · refine ⟨g, index, .get ?_, hitems⟩
    rw [hpeek, if_neg (not_not.2 hneg), fixBound, mayBeNegative, hneg]
    exact ⟨rfl, .nil hl⟩
  · refine ⟨(g.emitSnippet (.fixIndex d)).settle 1 .int, .int, .get ?_, ?_⟩
    · have hs := (Spells.emitSnippet hl (proper_fixIndex d)).settle 1 .int
      rw [hpeek, if_pos hneg, fixBound, mayBeNegative, bne_iff_ne.2 hneg]
      exact ⟨rfl, hs⟩
    · rw [settle, items_pushType, items_popTypes, items_emitSnippet, hitems]
      rfl

lemma indexable_of_fits {content : Contents} (ht : content.fits t = true) : (t.isSequence || t == .any) = true := by
  cases content <;> grind [Contents.fits, ValueType.isSequence]

lemma prints_getItem {content : Contents} (hl : Legible g) (hitems : g.stack.items = index :: t :: ts)
    (ht : content.fits t = true) : ∃ g', Prints getItem (.getItem t index) g g' := by
  have hpeek : g.stack.peek 1 = t := peek_of_items hitems 1
  have hindexable := indexable_of_fits ht
  obtain ⟨g1, index', hfix, -⟩ := prints_fixNegativeIndex hl hitems 1 rfl
  have hl1 := hfix.spells.legible
  refine ⟨(g1.emitSnippet (if t = .str then .ops [.push 1, .subStr] ++ .convert .byteString else .op .pickItem)).settle 2
    t.subscript, .get ?_⟩
  dsimp only
  rw [hpeek, Snippet.getItem]
  split
  · cases hindexable
  · have hread := (Spells.emitSnippet (s := .ops [.push 1, .subStr] ++ .convert .byteString) hl1 rfl).settle 2
      ValueType.str.subscript
    rw [if_pos rfl]
    exact hfix.bind ⟨rfl, hread⟩
  · next hstr =>
    have hread := (Spells.emit hl1 (o := .pickItem) rfl).settle 2 t.subscript
    rw [if_pos hindexable, if_neg hstr]
    exact hfix.bind ⟨rfl, hread⟩

lemma growable_cases (ht : Builtin.isGrowable t = true) : t = .any ∨ ∃ item, t = .list item := by
  unfold Builtin.isGrowable at ht
  split at ht
  · exact .inr ⟨_, rfl⟩
  · exact .inl rfl
  · cases ht

lemma prints_op {o : Opcode} (hl : Legible g) (ho : o.role = .plain) (pops : Nat) (result : Option ValueType) :
    Prints (modify fun g => g.op o pops result) (.op o) g (g.op o pops result) := ⟨rfl, .op hl ho pops result⟩

lemma prints_swap (hl : Legible g) : Prints (modify swap) (.op .swap) g g.swap :=
  ⟨rfl, (Spells.emit hl (o := .swap) rfl).still rfl rfl rfl⟩

/-- Storing into a list. -/
lemma setItem_run (hpeek : Builtin.isGrowable (g.stack.peek 2) = true) :
    setItem.run g = (if g.stack.peek 1 ≠ .nonNegInt then do
        modify swap
        fixNegativeIndex 2
        modify swap
        modify fun g => g.op .setItem 3 none
      else modify fun g => g.op .setItem 3 none : Emission Unit).run g := by
  obtain h | ⟨item, h⟩ := growable_cases hpeek
  · simp only [setItem, run_bind, show EStateM.run get g = .ok g g from rfl, h]
  · simp only [setItem, run_bind, show EStateM.run get g = .ok g g from rfl, h]

lemma prints_setItem (hl : Legible g) (hitems : g.stack.items = value :: index :: t :: ts)
    (ht : Builtin.isGrowable t = true) : ∃ g', Prints setItem (.setItem index) g g' := by
  have hpeek : g.stack.peek 2 = t := peek_of_items hitems 2
  have hindex : g.stack.peek 1 = index := peek_of_items hitems 1
  have hrun := setItem_run (g := g) (by rw [hpeek]; exact ht)
  rw [hindex] at hrun
  by_cases hneg : index = .nonNegInt
  · have hset := prints_op hl (o := .setItem) rfl 3 none
    rw [if_neg (not_not.2 hneg)] at hrun
    rw [Snippet.setItem, Snippet.mayBeNegative, hneg]
    exact ⟨_, hrun.trans hset.run, hset.spells⟩
  · have hitems' : g.swap.stack.items = index :: value :: t :: ts := by
      rw [swap, reverseWith]
      simp [ShadowStack.reverse, emit, hitems]
    obtain ⟨g1, index', hfix, -⟩ := prints_fixNegativeIndex (prints_swap hl).spells.legible hitems' 2 rfl
    have hlast := prints_swap hfix.spells.legible
    have hset := prints_op hlast.spells.legible (o := .setItem) rfl 3 none
    have hall : Prints (do modify swap; fixNegativeIndex 2; modify swap; modify fun g => g.op .setItem 3 none)
        (.op .swap ++ (.fixBound index 2 ++ (.op .swap ++ .op .setItem))) g _ :=
      (prints_swap hl).bind (hfix.bind (hlast.bind hset))
    rw [if_pos hneg] at hrun
    rw [fixBound, mayBeNegative, bne_iff_ne.2 hneg] at hall
    rw [Snippet.setItem, Snippet.mayBeNegative, bne_iff_ne.2 hneg]
    exact ⟨_, hrun.trans hall.run, hall.spells⟩

lemma prints_deleteItem (hl : Legible g) (hitems : g.stack.items = index :: t :: ts)
    (ht : Builtin.isGrowable t = true) : ∃ g', Prints deleteItem (.deleteItem index) g g' := by
  have hpeek : g.stack.peek 1 = t := peek_of_items hitems 1
  obtain ⟨g1, index', hfix, -⟩ := prints_fixNegativeIndex hl hitems 1 rfl
  have hremove := prints_op hfix.spells.legible (o := .remove) rfl 2 none
  refine ⟨g1.op .remove 2 none, .get ?_⟩
  dsimp only
  rw [hpeek]
  obtain rfl | ⟨item, rfl⟩ := growable_cases ht
  · exact hfix.bind hremove
  · exact hfix.bind hremove

/-- A built-in function is called by its body. What is done about the types of arguments and result is not seen. -/
lemma prints_inlined {s : Snippet} {g' : Generator} {b : Builtin} {body : List Instruction} {result : ValueType}
    (hbody : b.body ((List.range b.argCount).map g.stack.peek).reverse = .ok body)
    (hresult : b.returns ((List.range b.argCount).map g.stack.peek).reverse = .ok result)
    (hinline : Prints (inlineBody body) s g g') : ∃ g'', Prints (callInline b) s g g'' := by
  let settled (g : Generator) : Generator :=
    let g := g.popTypes b.argCount
    if result = .none then g else g.pushType result
  have hsettled : ∀ g, (settled g).code = g.code ∧ (settled g).pending = g.pending ∧ (settled g).waiting = g.waiting := by
    intro g
    by_cases h : result = .none
    · rw [show settled g = g.popTypes b.argCount from if_pos h]
      exact ⟨rfl, rfl, rfl⟩
    · rw [show settled g = (g.popTypes b.argCount).pushType result from if_neg h]
      exact ⟨rfl, rfl, rfl⟩
  refine ⟨settled g', .get ?_⟩
  dsimp only
  rw [hbody, hresult]
  exact hinline.andThen (k := settled) (hsettled g').1 (hsettled g').2.1 (hsettled g').2.2

lemma prints_popIndex (hl : Legible g) (hitems : g.stack.items = index :: t :: ts)
    (ht : Builtin.isGrowable t = true) : ∃ g', Prints (callBuiltin .popIndex) (.popIndex index) g g' := by
  obtain ⟨g1, index', hfix, hitems1⟩ := prints_fixNegativeIndex hl hitems 1 rfl
  have hargs : ((List.range Builtin.popIndex.argCount).map g1.stack.peek).reverse = [t, index'] := by
    change [g1.stack.peek 1, g1.stack.peek 0] = _
    rw [peek_of_items hitems1, peek_of_items hitems1]
    rfl
  have hbody : Builtin.popIndex.body [t, index'] = .ok (Builtin.plain
      [.dupBelow, .dupBelow, .pickItem, .reverse3, .swap, .remove]) := if_pos ht
  have hinline : Prints (inlineBody (Builtin.plain [.dupBelow, .dupBelow, .pickItem, .reverse3, .swap, .remove]))
      (.ops [.dupBelow, .dupBelow, .pickItem, .reverse3, .swap, .remove]) g1 _ := ⟨rfl, .emitSnippet hfix.spells.legible rfl⟩
  obtain ⟨g2, hcall⟩ := prints_inlined (b := .popIndex) (by rw [hargs]; exact hbody) (by rw [hargs]; rfl) hinline
  exact ⟨g2, hfix.bind hcall⟩

end Generator

/-! ### Accesses -/

/-- What an operation does with an index: if the index means a position of the `n` that there are, the outcome is as
said for this position, and otherwise the machine faults. -/
def Emission.Accesses (op : Emission Unit) (g : Generator) (m : Operands) (n : Nat) (i : Int)
    (outcome : Nat → Operands → Prop) : Prop :=
  match position? n i with
  | some p => ∃ m', Emission.Yields op g m (some m') ∧ outcome p m'
  | none => Emission.Yields op g m none

lemma Emission.Accesses.intro {op : Emission Unit} {g : Generator} {m : Operands} {n : Nat} {i : Int}
    {outcome : Nat → Operands → Prop} (hsome : ∀ p, position? n i = some p → ∃ m', Yields op g m (some m') ∧ outcome p m')
    (hnone : position? n i = none → Yields op g m none) : Accesses op g m n i outcome := by
  unfold Emission.Accesses
  split
  · next p hp => exact hsome p hp
  · next hp => exact hnone hp

variable {g : Generator} {t index value : ValueType} {ts : List ValueType} {S : List Value} {h : Heap} {c v : Value}
  {content : Contents} {i : Int} {ref : Nat} {vs : List Value}

lemma getItem_accesses (hg : Underway g) (hitems : g.stack.items = index :: t :: ts) (hi : index.Admits i)
    (ht : content.fits t = true) (hc : h.contents? c = some content) :
    Accesses getItem g ⟨.int i :: c :: S, h⟩ content.length i fun p m =>
      ∃ v h', content.item? t p = some v ∧ h.Extends h' ∧ m = ⟨v :: S, h'⟩ := by
  obtain ⟨g', hprints⟩ := prints_getItem hg.legible hitems ht
  refine .intro (fun p hp => ?_) fun hp => hprints.yields (yields_getItem_none hi ht hc hp)
  obtain ⟨v, h', hy, he, hv⟩ := yields_getItem hi ht hc hp
  exact ⟨_, hprints.yields hy, v, h', hv, he, rfl⟩

lemma setItem_accesses (hg : Underway g) (hitems : g.stack.items = value :: index :: t :: ts) (hi : index.Admits i)
    (ht : Builtin.isGrowable t = true) (hr : h.arrays[ref]? = some vs) :
    Accesses setItem g ⟨v :: .int i :: .array ref :: S, h⟩ vs.length i fun p m =>
      m = ⟨S, h.setArray ref (vs.set p v)⟩ := by
  obtain ⟨g', hprints⟩ := prints_setItem hg.legible hitems ht
  exact .intro (fun p hp => ⟨_, hprints.yields (yields_setItem hi hr hp), rfl⟩) fun hp =>
    hprints.yields (yields_setItem_none hi hr hp)

lemma deleteItem_accesses (hg : Underway g) (hitems : g.stack.items = index :: t :: ts) (hi : index.Admits i)
    (ht : Builtin.isGrowable t = true) (hr : h.arrays[ref]? = some vs) :
    Accesses deleteItem g ⟨.int i :: .array ref :: S, h⟩ vs.length i fun p m =>
      m = ⟨S, h.setArray ref (vs.eraseIdx p)⟩ := by
  obtain ⟨g', hprints⟩ := prints_deleteItem hg.legible hitems ht
  exact .intro (fun p hp => ⟨_, hprints.yields (yields_deleteItem hi hr hp), rfl⟩) fun hp =>
    hprints.yields (yields_deleteItem_none hi hr hp)

lemma popIndex_accesses (hg : Underway g) (hitems : g.stack.items = index :: t :: ts) (hi : index.Admits i)
    (ht : Builtin.isGrowable t = true) (hr : h.arrays[ref]? = some vs) :
    Accesses (callBuiltin .popIndex) g ⟨.int i :: .array ref :: S, h⟩ vs.length i fun p m =>
      ∃ v, vs[p]? = some v ∧ m = ⟨v :: S, h.setArray ref (vs.eraseIdx p)⟩ := by
  obtain ⟨g', hprints⟩ := prints_popIndex hg.legible hitems ht
  refine .intro (fun p hp => ?_) fun hp => hprints.yields (yields_popIndex_none hi hr hp)
  have hlt := (position?_eq_some.1 hp).2
  have hv : vs[p]? = some vs[p] := getElem?_eq_getElem hlt
  exact ⟨_, hprints.yields (yields_popIndex hi hr hp hv), vs[p], hv, rfl⟩

/-- **An index counts from the start or, if it is negative, from the end**, and faults if it means no item. With it an
item of a sequence is read, and an item of a list is overwritten, removed, or removed and returned. This is so whether
the type of the index makes the operation correct it or not. -/
theorem indexes_from_both_ends (hg : Underway g) (hi : index.Admits i) :
    (∀ t ts c content S, g.stack.items = index :: t :: ts → content.fits t = true → h.contents? c = some content →
      Emission.Accesses (Command.run .getItem) g ⟨.int i :: c :: S, h⟩ content.length i fun p m =>
        ∃ v h', content.item? t p = some v ∧ h.Extends h' ∧ m = ⟨v :: S, h'⟩) ∧
    ∀ t ts ref vs S, Builtin.isGrowable t = true → h.arrays[ref]? = some vs →
      (∀ value v, g.stack.items = value :: index :: t :: ts →
        Emission.Accesses (Command.run .setItem) g ⟨v :: .int i :: .array ref :: S, h⟩ vs.length i fun p m =>
          m = ⟨S, h.setArray ref (vs.set p v)⟩) ∧
      (g.stack.items = index :: t :: ts →
        (Emission.Accesses (Command.run .deleteItem) g ⟨.int i :: .array ref :: S, h⟩ vs.length i fun p m =>
          m = ⟨S, h.setArray ref (vs.eraseIdx p)⟩) ∧
        Emission.Accesses (Command.run (.builtin .popIndex)) g ⟨.int i :: .array ref :: S, h⟩ vs.length i fun p m =>
          ∃ v, vs[p]? = some v ∧ m = ⟨v :: S, h.setArray ref (vs.eraseIdx p)⟩) := by
  refine ⟨fun t ts c content S hitems ht hc => getItem_accesses hg hitems hi ht hc, fun t ts ref vs S ht hr => ⟨?_, ?_⟩⟩
  · exact fun value v hitems => setItem_accesses hg hitems hi ht hr
  · exact fun hitems => ⟨deleteItem_accesses hg hitems hi ht hr, popIndex_accesses hg hitems hi ht hr⟩

/-- A method with a list, a text and numbers. -/
def sequencesAndNumbers : SymbolTable where
  methods := .ofList [("main", { locals := .ofList [("xs", .list .int), ("text", .str), ("i", .int), ("j", .int), ("k", .int)] })]

/-- The list `[5, 6, 7]`. -/
def threeNumbers : Heap where
  arrays := [[.int 5, .int 6, .int 7]]
  buffers := []

/-- The last item of a list is read, deleted and popped, and an item before the first cannot be overwritten. -/
theorem indexes_from_both_ends_list :
    ∃ g g', Underway g ∧ g.stack.items = [.int, .list .int] ∧ Underway g' ∧ g'.stack.items = [.int, .int, .list .int] ∧
      (∃ h', threeNumbers.Extends h' ∧
        Emission.Yields (Command.run .getItem) g ⟨[.int (-1), .array 0], threeNumbers⟩ (some ⟨[.int 7], h'⟩)) ∧
      Emission.Yields (Command.run .deleteItem) g ⟨[.int (-1), .array 0], threeNumbers⟩
        (some ⟨[], ⟨[[.int 5, .int 6]], [], []⟩⟩) ∧
      Emission.Yields (Command.run (.builtin .popIndex)) g ⟨[.int (-1), .array 0], threeNumbers⟩
        (some ⟨[.int 7], ⟨[[.int 5, .int 6]], [], []⟩⟩) ∧
      Emission.Yields (Command.run .setItem) g' ⟨[.int 9, .int (-4), .array 0], threeNumbers⟩ none := by
  have hindex : typesAfter sequencesAndNumbers "main" [.load "xs", .load "i"] = some [.int, .list .int] := by decide +kernel
  have hvalue : typesAfter sequencesAndNumbers "main" [.load "xs", .load "i", .load "j"] =
      some [.int, .int, .list .int] := by decide +kernel
  obtain ⟨g, hg, hitems⟩ := underway_typesAfter hindex
  obtain ⟨g', hg', hitems'⟩ := underway_typesAfter hvalue
  have hint : ∀ {i : Int}, ValueType.int.Admits i := fun h => by cases h
  have hlast := indexes_from_both_ends (h := threeNumbers) (i := -1) hg hint
  have hbefore := indexes_from_both_ends (h := threeNumbers) (i := -4) hg' hint
  obtain ⟨m, hget, v, h', hv, he, rfl⟩ := hlast.1 (.list .int) [] (.array 0) _ [] hitems rfl rfl
  obtain ⟨⟨_, hdelete, rfl⟩, _, hpop, w, hw, rfl⟩ := (hlast.2 (.list .int) [] 0 _ [] rfl rfl).2 hitems
  have hset := (hbefore.2 (.list .int) [] 0 _ [] rfl rfl).1 .int (.int 9) hitems'
  cases Option.some.inj hv
  cases Option.some.inj hw
  exact ⟨g, g', hg, hitems, hg', hitems', ⟨h', he, hget⟩, hdelete, hpop, hset⟩

end NeoScript
