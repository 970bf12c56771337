import NeoScript.Proofs.Machine.Indexing
import NeoScript.Proofs.Machine.Integers

/-!
# Constants

The code of a constant leaves one value that stands for it. A scalar stands for itself. A sequence is an array of values
that stand for its items, and a mapping is a map in which each key has the value that is written last for it. Everything
that the value refers to is new.
-/

namespace NeoScript

open Generator Machine List Literal Heap

/-! ### Values that stand for constants -/

namespace Literal

/-- All integers among the constants fit into 32 bytes. -/
def Bounded (xs : List Literal) : Prop := ∀ x ∈ xs, ∀ n ∈ x.int?, InRange n

/-- Whether a constant can be the key of a mapping. -/
def isKey : Literal → Bool
  | bool _ | int _ | str _ | bytes _ => true
  | _ => false

mutual

/-- Whether every key in a constant can be one. No sequence has as many items as 32 bytes can count, which is more than any
storage holds. -/
def admissible : Literal → Bool
  | sequence items => decide (items.length < 2 ^ 255) && itemsAdmissible items
  | mapping pairs => pairsAdmissible pairs
  | _ => true

def itemsAdmissible : List Literal → Bool
  | [] => true
  | item :: items => item.admissible && itemsAdmissible items

def pairsAdmissible : List (Literal × Literal) → Bool
  | [] => true
  | (key, value) :: pairs => key.isKey && value.admissible && pairsAdmissible pairs

end

/-- The value of a constant that the heap is not needed for. -/
def scalar? : Literal → Option Value
  | none => some .null
  | bool b => some (.bool b)
  | int v => some (.int v)
  | str s => some (.bytes s.toUTF8.toList)
  | bytes bs => some (.bytes bs)
  | sequence _ | mapping _ => .none

end Literal

namespace Machine

/-- What is left of pairs that are put in one after the other: each key once, in the order in which the keys first occur,
with the value that it is given last. -/
structure Entries.Holds (es written : Entries) : Prop where
  keys : es.map Prod.fst = (written.map Prod.fst).eraseDups
  lookup : ∀ k, es.lookup k = written.reverse.lookup k

mutual

/-- In the heap `h` the value stands for the constant, and all that it refers to is new since `start`. -/
def StandsFor (start h : Heap) : Literal → Value → Prop
  | .sequence items, v =>
    ∃ ref vs, v = .array ref ∧ start.arrays.length ≤ ref ∧ h.arrays[ref]? = some vs ∧ StandForItems start h items vs
  | .mapping pairs, v =>
    ∃ ref es written, v = .map ref ∧ start.maps.length ≤ ref ∧ h.maps[ref]? = some es ∧ es.Holds written ∧
      StandForPairs start h pairs written
  | l, v => l.scalar? = some v

/-- The values stand for the items of a sequence, in the same order. -/
def StandForItems (start h : Heap) : List Literal → List Value → Prop
  | [], vs => vs = []
  | item :: items, vs => ∃ w ws, vs = w :: ws ∧ StandsFor start h item w ∧ StandForItems start h items ws

/-- The pairs stand for the pairs of a mapping, in the same order. -/
def StandForPairs (start h : Heap) : List (Literal × Literal) → Entries → Prop
  | [], es => es = []
  | (key, value) :: pairs, es =>
    ∃ k v rest, es = (k, v) :: rest ∧ key.scalar? = some k ∧ StandsFor start h value v ∧ StandForPairs start h pairs rest

end

/-! ### Pairs that are put in one after the other -/

namespace Entries

variable {es written : Entries} {k v : Value}

lemma keys_put (k v : Value) (es : Entries) :
    (put k v es).map Prod.fst = if k ∈ es.map Prod.fst then es.map Prod.fst else es.map Prod.fst ++ [k] := by
  induction es with
  | nil => rfl
  | cons e es ih =>
    rw [put]
    split_ifs with he hk hk
    · simp [he]
    · simp [he] at hk
    · have hk' : k ∈ es.map Prod.fst := (mem_cons.1 hk).resolve_left (Ne.symm he)
      rw [map_cons, ih, if_pos hk', map_cons]
    · have hk' : k ∉ es.map Prod.fst := fun h => hk (mem_cons_of_mem _ h)
      rw [map_cons, ih, if_neg hk', map_cons, cons_append]

lemma lookup_cons (e : Value × Value) (es : Entries) (j : Value) :
    List.lookup j (e :: es) = if j = e.1 then some e.2 else List.lookup j es := by
  rw [List.lookup_cons]
  by_cases hj : j = e.1
  · rw [if_pos hj, beq_iff_eq.2 hj]
  · rw [if_neg hj, beq_false_of_ne hj]

lemma lookup_put (k v : Value) (es : Entries) (j : Value) :
    (put k v es).lookup j = if j = k then some v else es.lookup j := by
  induction es with
  | nil => exact lookup_cons (k, v) [] j
  | cons e es ih =>
    rw [put]
    split_ifs with he hj hj
    · rw [lookup_cons, if_pos hj]
    · rw [lookup_cons, lookup_cons, he, if_neg hj, if_neg hj]
    · rw [lookup_cons, ih, if_pos hj, if_neg fun h => he (h.symm.trans hj)]
    · rw [lookup_cons, lookup_cons, ih, if_neg hj]

lemma holds_nil : Holds [] [] := ⟨rfl, fun _ => rfl⟩

/-- One more pair. -/
lemma Holds.put (hs : es.Holds written) (k v : Value) : (Entries.put k v es).Holds (written ++ [(k, v)]) where
  keys := by
    rw [keys_put, hs.keys, map_append, eraseDups_append]
    split_ifs with hk
    · have hk' : k ∈ written.map Prod.fst := mem_eraseDups.1 hk
      simp [removeAll, hk']
    · have hk' : k ∉ written.map Prod.fst := fun h => hk (mem_eraseDups.2 h)
      simp [removeAll, hk', eraseDups_cons]
  lookup := fun j => by
    rw [lookup_put, hs.lookup, reverse_append, reverse_singleton, singleton_append, lookup_cons]

end Entries

/-! ### Growing heaps -/

/-- What came into the heap `h` since `start` is in `h'`, unchanged. -/
structure Heap.Keeps (start h h' : Heap) : Prop where
  arrays : ∀ {ref vs}, start.arrays.length ≤ ref → h.arrays[ref]? = some vs → h'.arrays[ref]? = some vs
  maps : ∀ {ref es}, start.maps.length ≤ ref → h.maps[ref]? = some es → h'.maps[ref]? = some es

variable {start start' h h' : Heap}

lemma Heap.Extends.keeps (e : h.Extends h') (start : Heap) : start.Keeps h h' where
  arrays := fun _ => e.array
  maps := fun _ => Extends.getElem?_of_prefix e.maps

/-- A map that was there before is given other entries. -/
lemma Heap.keeps_setMap {ref : Nat} (hr : ref < start.maps.length) (h : Heap) (es : Entries) :
    start.Keeps h (h.setMap ref es) where
  arrays := fun _ hget => hget
  maps := fun hle hget => (getElem?_set_ne (ne_of_lt (lt_of_lt_of_le hr hle))).trans hget

mutual

/-- A value stands for a constant also in a heap that keeps what is new, seen from an earlier start. -/
lemma StandsFor.mono (ha : start'.arrays.length ≤ start.arrays.length) (hm : start'.maps.length ≤ start.maps.length)
    (hk : start.Keeps h h') : ∀ {l : Literal} {v : Value}, StandsFor start h l v → StandsFor start' h' l v
  | .sequence items, v, hv => by
    obtain ⟨ref, vs, rfl, hnew, hget, hitems⟩ := hv
    exact ⟨ref, vs, rfl, le_trans ha hnew, hk.arrays hnew hget, StandForItems.mono ha hm hk hitems⟩
  | .mapping pairs, v, hv => by
    obtain ⟨ref, es, written, rfl, hnew, hget, hes, hpairs⟩ := hv
    exact ⟨ref, es, written, rfl, le_trans hm hnew, hk.maps hnew hget, hes, StandForPairs.mono ha hm hk hpairs⟩
  | .none, _, hv | .bool _, _, hv | .int _, _, hv | .str _, _, hv | .bytes _, _, hv => hv

lemma StandForItems.mono (ha : start'.arrays.length ≤ start.arrays.length) (hm : start'.maps.length ≤ start.maps.length)
    (hk : start.Keeps h h') : ∀ {items : List Literal} {vs : List Value},
      StandForItems start h items vs → StandForItems start' h' items vs
  | [], _, hvs => hvs
  | item :: items, vs, hvs => by
    obtain ⟨w, ws, rfl, hw, hws⟩ := hvs
    exact ⟨w, ws, rfl, StandsFor.mono ha hm hk hw, StandForItems.mono ha hm hk hws⟩

lemma StandForPairs.mono (ha : start'.arrays.length ≤ start.arrays.length) (hm : start'.maps.length ≤ start.maps.length)
    (hk : start.Keeps h h') : ∀ {pairs : List (Literal × Literal)} {es : Entries},
      StandForPairs start h pairs es → StandForPairs start' h' pairs es
  | [], _, hes => hes
  | (key, value) :: pairs, es, hes => by
    obtain ⟨k, v, rest, rfl, hkey, hv, hrest⟩ := hes
    exact ⟨k, v, rest, rfl, hkey, StandsFor.mono ha hm hk hv, StandForPairs.mono ha hm hk hrest⟩

end

lemma StandForItems.length_eq {items : List Literal} {vs : List Value} (hvs : StandForItems start h items vs) :
    vs.length = items.length := by
  induction items generalizing vs with
  | nil =>
    cases hvs
    rfl
  | cons item items ih =>
    obtain ⟨w, ws, rfl, -, hws⟩ := hvs
    rw [length_cons, length_cons, ih hws]

lemma StandForPairs.append {key value : Literal} {k v : Value} (hk : key.scalar? = some k) (hv : StandsFor start h value v) :
    ∀ {pairs : List (Literal × Literal)} {es : Entries}, StandForPairs start h pairs es →
      StandForPairs start h (pairs ++ [(key, value)]) (es ++ [(k, v)])
  | [], _, hes => by
    cases hes
    exact ⟨k, v, [], rfl, hk, hv, rfl⟩
  | (_, _) :: _, _, hes => by
    obtain ⟨k', v', rest, rfl, hk', hv', hrest⟩ := hes
    exact ⟨k', v', rest ++ [(k, v)], rfl, hk', hv', append hk hv hrest⟩

/-! ### Mappings under construction -/

/-- The map that is the first one since `start` holds these pairs of a mapping. What else is new stands for their values. -/
structure Filled (start h : Heap) (pairs : List (Literal × Literal)) : Prop where
  grown : start.Extends h
  filled : ∃ es written, h.maps[start.maps.length]? = some es ∧ es.Holds written ∧
    StandForPairs (start.addMap []) h pairs written

namespace Filled

variable {pairs : List (Literal × Literal)} {key value : Literal} {k v : Value}

lemma newMap (start : Heap) : Filled start (start.addMap []) [] where
  grown := ⟨prefix_refl _, prefix_refl _, prefix_append _ _⟩
  filled := ⟨[], [], by simp [addMap], Entries.holds_nil, rfl⟩

lemma extend (hf : Filled start h pairs) (e : h.Extends h') : Filled start h' pairs := by
  obtain ⟨hgrown, es, written, hget, hes, hpairs⟩ := hf
  exact ⟨hgrown.trans e, es, written, Extends.getElem?_of_prefix e.maps hget, hes,
    hpairs.mono (le_refl _) (le_refl _) (e.keeps _)⟩

/-- The map is there before anything that its values refer to. -/
lemma older (hf : Filled start h pairs) :
    (start.addMap []).arrays.length ≤ h.arrays.length ∧ (start.addMap []).maps.length ≤ h.maps.length := by
  obtain ⟨hgrown, es, -, hget, -⟩ := hf
  refine ⟨hgrown.arrays.length_le, ?_⟩
  rw [addMap, length_append]
  exact (List.getElem?_eq_some_iff.1 hget).1

/-- One more pair is put in. -/
lemma put (hf : Filled start h pairs) (hk : key.scalar? = some k) (hv : StandsFor (start.addMap []) h value v) :
    ∃ es, h.maps[start.maps.length]? = some es ∧
      Filled start (h.setMap start.maps.length (Entries.put k v es)) (pairs ++ [(key, value)]) := by
  obtain ⟨hgrown, es, written, hget, hes, hpairs⟩ := hf
  have hlt : start.maps.length < h.maps.length := (List.getElem?_eq_some_iff.1 hget).1
  have hkeeps : (start.addMap []).Keeps h (h.setMap start.maps.length (Entries.put k v es)) :=
    keeps_setMap (by simp [addMap]) h _
  refine ⟨es, hget, ⟨hgrown.arrays, hgrown.buffers, ?_⟩, Entries.put k v es, _, getElem?_set_self hlt, hes.put k v,
    (hpairs.append hk hv).mono (le_refl _) (le_refl _) hkeeps⟩
  exact prefix_iff_getElem?.2 fun i hi =>
    (getElem?_set_ne (ne_of_gt hi)).trans (prefix_iff_getElem?.1 hgrown.maps i hi)

end Filled

lemma perform_setItem_map {ref : Nat} {es : Entries} {k v : Value} {S : List Value} (hr : h.maps[ref]? = some es)
    (hk : k.isKey = true) : perform .setItem [] ⟨v :: k :: .map ref :: S, h⟩ = some ⟨S, h.setMap ref (Entries.put k v es)⟩ :=
  perform_of_run (show Action.setItem.run _ = _ by simp [Action.setItem, hr, hk])

lemma isKey_of_scalar? {key : Literal} (h : key.isKey = true) : ∃ k, key.scalar? = some k ∧ k.isKey = true := by
  cases key with
  | bool b | int n | str s | bytes bs => exact ⟨_, rfl, rfl⟩
  | _ => cases h

end Machine

/-! ### The code of a constant -/

namespace Literal

open Snippet

mutual

/-- The code of a constant. -/
def snippet : Literal → Snippet
  | none => .op .pushNull
  | bool b => .op (.pushBool b)
  | int v => .row ((pushInteger? v).getD [])
  | str s => .data (.pushDataFor s.toUTF8.toList.length) s.toUTF8.toList
  | bytes bs => .data (.pushDataFor bs.length) bs
  | sequence [] => .op .newArray0
  | sequence (item :: items) =>
    itemsSnippet items ++ (item.snippet ++ (.row ((pushInteger? (items.length + 1 : Nat)).getD []) ++ .op .pack))
  | mapping pairs => .op .newMap ++ pairsSnippet pairs

def itemsSnippet : List Literal → Snippet
  | [] => .nil
  | item :: items => itemsSnippet items ++ item.snippet

def pairsSnippet : List (Literal × Literal) → Snippet
  | [] => .nil
  | (key, value) :: pairs => .op .dup ++ (key.snippet ++ (value.snippet ++ (.op .setItem ++ pairsSnippet pairs)))

end

lemma yields_integer {v : Int} (hv : InRange v) (S : List Value) (h : Heap) :
    Yields (.row ((pushInteger? v).getD [])) ⟨S, h⟩ (some ⟨.int v :: S, h⟩) := by
  obtain ⟨is, his⟩ := exists_pushInteger? hv
  rw [his]
  exact yields_of_pushing (pushing_pushInteger? his) S h

lemma yields_scalar {l : Literal} {v : Value} (hv : l.scalar? = some v) (hr : Bounded l.leaves) (S : List Value)
    (h : Heap) : Yields l.snippet ⟨S, h⟩ (some ⟨v :: S, h⟩) := by
  have hdata (bs : Bytes) : Yields (.data (.pushDataFor bs.length) bs) ⟨S, h⟩ (some ⟨.bytes bs :: S, h⟩) := by
    refine .data ?_
    unfold Opcode.pushDataFor
    split_ifs <;> rfl
  cases l with
  | none =>
    cases hv
    exact .op rfl
  | bool b =>
    cases hv
    exact .op rfl
  | int n =>
    cases hv
    exact yields_integer (hr _ mem_cons_self n rfl) S h
  | str s =>
    cases hv
    exact hdata _
  | bytes bs =>
    cases hv
    exact hdata bs
  | sequence items => cases hv
  | mapping pairs => cases hv

mutual

/-- The code of a constant leaves a value that stands for it. -/
lemma yields_snippet : ∀ (l : Literal), Bounded l.leaves → l.admissible = true → ∀ (S : List Value) (h : Heap),
    ∃ v h', Yields l.snippet ⟨S, h⟩ (some ⟨v :: S, h'⟩) ∧ h.Extends h' ∧ StandsFor h h' l v
  | .sequence [], _, _, S, h => by
    refine ⟨.array h.arrays.length, h.addArray [], .op rfl, .addArray h [], _, [], rfl, le_refl _, ?_, rfl⟩
    exact array_addArray h []
  | .sequence (item :: items), hr, ha, S, h => by
    replace hr := forall_mem_append.1 hr
    simp only [admissible, itemsAdmissible, Bool.and_eq_true, decide_eq_true_eq, length_cons] at ha
    obtain ⟨vs, h1, hrest, he1, hvs⟩ := yields_itemsSnippet items hr.2 ha.2.2 S h
    obtain ⟨v, h2, hfirst, he2, hv⟩ := yields_snippet item hr.1 ha.2.1 (vs ++ S) h1
    have hlength : (v :: vs).length = items.length + 1 := by
      rw [length_cons, hvs.length_eq]
    have hcount := yields_integer (v := (items.length + 1 : Nat)) (by unfold InRange; omega) (v :: vs ++ S) h2
    have hpack := perform_pack (v :: vs) S h2
    rw [hlength] at hpack
    refine ⟨.array h2.arrays.length, h2.addArray (v :: vs),
      .seq hrest (.seq hfirst (.seq hcount (.op hpack))), (he1.trans he2).trans (.addArray h2 _), _, v :: vs, rfl,
      (he1.trans he2).arrays.length_le, array_addArray h2 _, v, vs, rfl, ?_, ?_⟩
    · exact hv.mono he1.arrays.length_le he1.maps.length_le ((Extends.addArray h2 _).keeps _)
    · exact hvs.mono (le_refl _) (le_refl _) ((he2.trans (.addArray h2 _)).keeps _)
  | .mapping pairs, hr, ha, S, h => by
    obtain ⟨h', hy, hf⟩ := yields_pairsSnippet pairs hr ha S (Filled.newMap h)
    obtain ⟨hgrown, es, written, hget, hes, hpairs⟩ := hf
    refine ⟨.map h.maps.length, h', .seq (.op rfl) hy, hgrown, _, es, written, rfl, le_refl _, hget, hes, ?_⟩
    have harrays : h.arrays.length ≤ (h.addMap []).arrays.length := le_refl _
    have hmaps : h.maps.length ≤ (h.addMap []).maps.length := by simp [addMap]
    exact hpairs.mono harrays hmaps ((Extends.refl h').keeps _)
  | .none, hr, _, S, h | .bool _, hr, _, S, h | .int _, hr, _, S, h | .str _, hr, _, S, h | .bytes _, hr, _, S, h =>
    ⟨_, h, yields_scalar rfl hr S h, .refl h, rfl⟩

/-- The code of items leaves values that stand for them, the first on top. -/
lemma yields_itemsSnippet : ∀ (items : List Literal), Bounded (itemLeaves items) → itemsAdmissible items = true →
    ∀ (S : List Value) (h : Heap), ∃ vs h', Yields (itemsSnippet items) ⟨S, h⟩ (some ⟨vs ++ S, h'⟩) ∧ h.Extends h' ∧
      StandForItems h h' items vs
  | [], _, _, S, h => ⟨[], h, .nil, .refl h, rfl⟩
  | item :: items, hr, ha, S, h => by
    replace hr := forall_mem_append.1 hr
    rw [itemsAdmissible, Bool.and_eq_true] at ha
    obtain ⟨vs, h1, hrest, he1, hvs⟩ := yields_itemsSnippet items hr.2 ha.2 S h
    obtain ⟨v, h2, hfirst, he2, hv⟩ := yields_snippet item hr.1 ha.1 (vs ++ S) h1
    refine ⟨v :: vs, h2, .seq hrest hfirst, he1.trans he2, v, vs, rfl, ?_, ?_⟩
    · exact hv.mono he1.arrays.length_le he1.maps.length_le ((Extends.refl h2).keeps _)
    · exact hvs.mono (le_refl _) (le_refl _) (he2.keeps _)

/-- The code of pairs puts them into the map on top. -/
lemma yields_pairsSnippet : ∀ (pairs : List (Literal × Literal)), Bounded (pairLeaves pairs) →
    pairsAdmissible pairs = true → ∀ {done : List (Literal × Literal)} (S : List Value) {start h : Heap}, Filled start h done →
    ∃ h', Yields (pairsSnippet pairs) ⟨.map start.maps.length :: S, h⟩ (some ⟨.map start.maps.length :: S, h'⟩) ∧
      Filled start h' (done ++ pairs)
  | [], _, _, done, S, start, h, hf => ⟨h, .nil, by rwa [append_nil]⟩
  | (key, value) :: pairs, hr, ha, done, S, start, h, hf => by
    obtain ⟨hpair, hrest⟩ := forall_mem_append.1 hr
    replace hpair := forall_mem_append.1 hpair
    simp only [pairsAdmissible, Bool.and_eq_true] at ha
    obtain ⟨k, hk, hkey⟩ := isKey_of_scalar? ha.1.1
    obtain ⟨v, h1, hvalue, he1, hv⟩ := yields_snippet value hpair.2 ha.1.2 (k :: .map start.maps.length :: .map start.maps.length :: S) h
    have hv' := hv.mono hf.older.1 hf.older.2 ((Extends.refl h1).keeps _)
    obtain ⟨es, hget, hf1⟩ := (hf.extend he1).put hk hv'
    obtain ⟨h2, hrest, hf2⟩ := yields_pairsSnippet pairs hrest ha.2 S hf1
    refine ⟨h2, .seq (.op rfl) (.seq (yields_scalar hk hpair.1 _ h) (.seq hvalue (.seq (.op ?_) hrest))), ?_⟩
    · exact perform_setItem_map hget hkey
    · rwa [append_assoc] at hf2

end

end Literal

/-! ### Emitting a constant -/

namespace Generator

variable {g : Generator}

lemma prints_modify {s : Snippet} {k : Generator → Generator} (hs : Spells s g (k g)) : Prints (modify k) s g (k g) :=
  ⟨rfl, hs⟩

lemma Spells.pushIndex (hl : Legible g) (n : Nat) : Spells (.row ((pushInteger? n).getD [])) g (g.pushIndex n) := by
  cases hp : pushInteger? (n : Int) with
  | none =>
    rw [Generator.pushIndex, hp]
    exact (nil hl).still rfl rfl rfl
  | some is =>
    rw [Generator.pushIndex, hp]
    exact (pushInteger hl hp).still rfl rfl rfl

/-- A byte string has the form that its type asks for. -/
lemma Spells.pushBytes (hl : Legible g) (bytes : Bytes) {t : ValueType} (ht : t.itemType = .byteString) :
    Spells (.data (.pushDataFor bytes.length) bytes) g ((g.pushBytes bytes).cast t) := by
  have hrole : (Opcode.pushDataFor bytes.length).role = .plain := by
    unfold Opcode.pushDataFor
    split_ifs <;> rfl
  have hpeek : (g.pushBytes bytes).stack.peek 0 = .bytes := peek_of_items (items_pushBytes g bytes) 0
  unfold Generator.cast
  rw [hpeek, ht]
  exact (instruction hl hrole).still rfl rfl rfl

lemma prints_integer {v : Int} (hl : Legible g) (hv : InRange v) :
    ∃ g', Prints (integer v) (.row ((pushInteger? v).getD [])) g g' := by
  obtain ⟨is, his⟩ := exists_pushInteger? hv
  rw [his]
  exact ⟨_, run_integer his g, (Spells.pushInteger hl his).still rfl rfl rfl⟩

lemma prints_pushData {bytes : Bytes} {t : ValueType} (hl : Legible g) (hb : Pushable bytes = true)
    (ht : t.itemType = .byteString) : ∃ g', Prints (do pushData bytes; modify fun g => g.cast t)
      (.data (.pushDataFor bytes.length) bytes) g g' := by
  rw [Pushable] at hb
  rw [pushData, if_pos hb]
  exact ⟨_, rfl, .pushBytes hl bytes ht⟩

mutual

lemma prints_literal : ∀ (l : Literal) {g : Generator}, Bounded l.leaves → l.Pushable → Legible g →
    ∃ g', Prints (literal l) l.snippet g g'
  | .none, g, _, _, hl | .bool b, g, _, _, hl => ⟨_, prints_modify (.op hl rfl 0 _)⟩
  | .int v, g, hr, _, hl => prints_integer hl (hr _ mem_cons_self v rfl)
  | .str s, g, _, hp, hl => prints_pushData hl (hp _ mem_cons_self _ rfl) rfl
  | .bytes bs, g, _, hp, hl => prints_pushData hl (hp _ mem_cons_self _ rfl) rfl
  | .sequence [], g, _, _, hl => ⟨_, prints_modify (.op hl rfl 0 _)⟩
  | .sequence (item :: items), g, hr, hp, hl => by
    replace hr := forall_mem_append.1 hr
    replace hp := forall_mem_append.1 hp
    obtain ⟨g1, h1⟩ := prints_literalItems items hr.2 hp.2 hl
    obtain ⟨g2, h2⟩ := prints_literal item hr.1 hp.1 h1.spells.legible
    have hcount := Spells.pushIndex h2.spells.legible (items.length + 1)
    rw [literal]
    exact ⟨_, h1.bind (h2.bind (prints_modify (hcount.seq (.op hcount.legible rfl _ _))))⟩
  | .mapping pairs, g, hr, hp, hl => by
    have hmap : Spells (.op .newMap) g (g.op .newMap 0 (some (mapping pairs).valueType)) := .op hl rfl 0 _
    obtain ⟨g1, h1⟩ := prints_literalPairs pairs hr hp hmap.legible
    rw [literal]
    exact ⟨g1, (prints_modify hmap).bind h1⟩

lemma prints_literalItems : ∀ (items : List Literal) {g : Generator}, Bounded (itemLeaves items) →
    (∀ x ∈ itemLeaves items, ∀ bs ∈ x.payload?, Pushable bs = true) → Legible g →
    ∃ g', Prints (literalItems items) (itemsSnippet items) g g'
  | [], g, _, _, hl => ⟨g, rfl, .nil hl⟩
  | item :: items, g, hr, hp, hl => by
    replace hr := forall_mem_append.1 hr
    replace hp := forall_mem_append.1 hp
    obtain ⟨g1, h1⟩ := prints_literalItems items hr.2 hp.2 hl
    obtain ⟨g2, h2⟩ := prints_literal item hr.1 hp.1 h1.spells.legible
    rw [literalItems]
    exact ⟨g2, h1.bind h2⟩

lemma prints_literalPairs : ∀ (pairs : List (Literal × Literal)) {g : Generator}, Bounded (pairLeaves pairs) →
    (∀ x ∈ pairLeaves pairs, ∀ bs ∈ x.payload?, Pushable bs = true) → Legible g →
    ∃ g', Prints (literalPairs pairs) (pairsSnippet pairs) g g'
  | [], g, _, _, hl => ⟨g, rfl, .nil hl⟩
  | (key, value) :: pairs, g, hr, hp, hl => by
    obtain ⟨hpair, hrest⟩ := forall_mem_append.1 hr
    replace hpair := forall_mem_append.1 hpair
    obtain ⟨hpush, hpushes⟩ := forall_mem_append.1 hp
    replace hpush := forall_mem_append.1 hpush
    have hdup : Spells (.op .dup) g g.dup := (Spells.emit hl rfl).still rfl rfl rfl
    obtain ⟨g1, h1⟩ := prints_literal key hpair.1 hpush.1 hdup.legible
    obtain ⟨g2, h2⟩ := prints_literal value hpair.2 hpush.2 h1.spells.legible
    have hset : Spells (.op .setItem) g2 (g2.op .setItem 3 none) := .op h2.spells.legible rfl 3 none
    obtain ⟨g3, h3⟩ := prints_literalPairs pairs hrest hpushes hset.legible
    rw [literalPairs]
    exact ⟨g3, (prints_modify hdup).bind (h1.bind (h2.bind ((prints_modify hset).bind h3)))⟩

end

end Generator

end NeoScript
