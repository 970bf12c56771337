import Mathlib.Data.List.Forall2
import Mathlib.Order.Bounds.Basic
import NeoScript.Literal

/-!
# The order of types

The less is known of a value, the higher its type stands. Joining gives the least upper bound in this order, so neither
the order of the items of a constant nor the choice of the branch that is joined into the other can change what is found.
-/

namespace NeoScript

namespace Literal

lemma itemTypes_eq (items : List Literal) : itemTypes items = items.map valueType := by
  induction items with
  | nil => rfl
  | cons item items ih => rw [itemTypes, ih, List.map_cons]

lemma keyTypes_eq (pairs : List (Literal × Literal)) : keyTypes pairs = pairs.map (·.1.valueType) := by
  induction pairs with
  | nil => rfl
  | cons pair pairs ih => rw [keyTypes, ih, List.map_cons]

lemma valueTypes_eq (pairs : List (Literal × Literal)) : valueTypes pairs = pairs.map (·.2.valueType) := by
  induction pairs with
  | nil => rfl
  | cons pair pairs ih => rw [valueTypes, ih, List.map_cons]

end Literal

namespace ValueType

open List

variable {a b c x t : ValueType} {ts ts' : List ValueType}

/-- The order that three rules generate: an integer known to be at least zero is an integer, a list of items of a type is
a list of items of a higher type, and every value is one of which nothing is known. -/
inductive Below : ValueType → ValueType → Prop
  | refl (a : ValueType) : Below a a
  | trans {a b c : ValueType} : Below a b → Below b c → Below a c
  | nonNegInt : Below nonNegInt int
  | list {a b : ValueType} : Below a b → Below (list a) (list b)
  | any (a : ValueType) : Below a any

/-- What can stand above a type. -/
lemma Below.above (h : Below a b) :
    b = a ∨ b = .any ∨ a = .nonNegInt ∧ b = .int ∨ ∃ x y, a = .list x ∧ b = .list y ∧ Below x y := by
  induction h with
  | refl a => exact .inl rfl
  | nonNegInt => exact .inr (.inr (.inl ⟨rfl, rfl⟩))
  | list h _ => exact .inr (.inr (.inr ⟨_, _, rfl, rfl, h⟩))
  | any a => exact .inr (.inl rfl)
  | trans _ _ ih ih' =>
    rcases ih with rfl | rfl | ⟨rfl, rfl⟩ | ⟨x, y, rfl, rfl, hxy⟩
    · exact ih'
    · exact .inr (.inl (by simpa using ih'))
    · exact .inr (by simpa using ih'.symm)
    · rcases ih' with rfl | rfl | ⟨h, -⟩ | ⟨_, z, hy, rfl, hyz⟩
      · exact .inr (.inr (.inr ⟨x, y, rfl, rfl, hxy⟩))
      · exact .inr (.inl rfl)
      · cases h
      · cases hy
        exact .inr (.inr (.inr ⟨x, z, rfl, rfl, hxy.trans hyz⟩))

lemma Below.of_list (h : Below (.list x) b) : b = .any ∨ ∃ y, b = .list y ∧ Below x y := by
  rcases h.above with rfl | rfl | ⟨h, -⟩ | ⟨_, y, hx, rfl, hxy⟩
  · exact .inr ⟨x, rfl, .refl x⟩
  · exact .inl rfl
  · cases h
  · cases hx
    exact .inr ⟨y, rfl, hxy⟩

lemma Below.antisymm (h : Below a b) (h' : Below b a) : a = b := by
  induction a generalizing b with
  | list x ih =>
    rcases h.of_list with rfl | ⟨y, rfl, hxy⟩
    · simpa using h'.above
    · rcases h'.of_list with h | ⟨_, hx, hyx⟩
      · cases h
      · cases hx
        rw [ih hxy hyx]
  | _ => grind [h.above, h'.above]

/-! ### Joining -/

lemma isInt_eq_true : a.isInt = true ↔ a = int ∨ a = nonNegInt := by
  cases a <;> simp [isInt]

lemma below_int (h : a.isInt = true) : Below a int := by
  rcases isInt_eq_true.1 h with rfl | rfl
  · exact .refl int
  · exact .nonNegInt

lemma below_join (a b : ValueType) : Below a (join a b) ∧ Below b (join a b) := by
  fun_induction join a b with
  | case1 a => exact ⟨.refl a, .refl a⟩
  | case2 x y h ih => exact ⟨ih.1.list, ih.2.list⟩
  | case3 a b h hint hlist =>
    rw [if_pos hint]
    exact (Bool.and_eq_true_iff.1 hint).imp below_int below_int
  | case4 a b h hint hlist =>
    rw [if_neg hint]
    exact ⟨.any a, .any b⟩

lemma join_below (ha : Below a c) (hb : Below b c) : Below (join a b) c := by
  fun_induction join a b generalizing c with
  | case1 a => exact ha
  | case2 x y h ih =>
    rcases ha.of_list with rfl | ⟨z, rfl, hx⟩
    · exact .any _
    · rcases hb.of_list with h | ⟨_, hz, hy⟩
      · cases h
      · cases hz
        exact (ih hx hy).list
  | case3 a b h hint hlist =>
    rw [if_pos hint]
    grind [isInt_eq_true]
  | case4 a b h hint hlist =>
    -- Two different types that are neither integers nor lists have only one type above both.
    rw [if_neg hint]
    grind [isInt, ha.above, hb.above, Below.refl]

/-- Types form a semilattice in which joining gives the least upper bound. -/
instance : SemilatticeSup ValueType where
  le := Below
  le_refl := Below.refl
  le_trans _ _ _ := Below.trans
  le_antisymm _ _ := Below.antisymm
  sup := join
  le_sup_left a b := (below_join a b).1
  le_sup_right a b := (below_join a b).2
  sup_le _ _ _ := join_below

lemma foldl_join_le : ts.foldl join t ≤ c ↔ ∀ x ∈ t :: ts, x ≤ c := by
  induction ts generalizing t with
  | nil => simp
  | cons u ts ih =>
    rw [foldl_cons, ih, forall_mem_cons, forall_mem_cons, forall_mem_cons, ← and_assoc]
    exact and_congr_left' sup_le_iff

/-- The types of some items have one join in whatever order they come. -/
lemma joinAll_perm (h : ts ~ ts') : joinAll ts = joinAll ts' := by
  cases ts with
  | nil => rw [h.nil_eq]
  | cons t ts =>
    obtain ⟨t', ts', rfl⟩ := exists_cons_of_length_eq_add_one h.length_eq.symm
    refine eq_of_forall_ge_iff fun c => ?_
    rw [joinAll, joinAll, foldl_join_le, foldl_join_le]
    exact forall_congr' fun x => imp_congr_left h.mem_iff

lemma forall₂_le_zipWith (h : ts.length = ts'.length) :
    Forall₂ (· ≤ ·) ts (zipWith join ts ts') ∧ Forall₂ (· ≤ ·) ts' (zipWith join ts ts') := by
  induction ts generalizing ts' with
  | nil => simp [eq_nil_of_length_eq_zero h.symm]
  | cons t ts ih =>
    obtain ⟨t', ts', rfl⟩ := exists_cons_of_length_eq_add_one h.symm
    obtain ⟨hl, hr⟩ := ih (Nat.succ.inj h)
    exact ⟨.cons le_sup_left hl, .cons le_sup_right hr⟩

/-- **Joining gives the least upper bound.** Joining is commutative, associative and idempotent, absorbs everything into
the type of which nothing is known, and gives the least type above both in the generated order. So the type of a constant
sequence or mapping stays the same if its items or pairs are reordered, and two stacks of the same depth have one join,
which is at each place above both. -/
theorem join_isLUB (a b c : ValueType) {items items' : List Literal} (hitems : items ~ items')
    {pairs pairs' : List (Literal × Literal)} (hpairs : pairs ~ pairs') {s s' : List ValueType}
    (hdepth : s.length = s'.length) :
    (join a b = join b a ∧ join (join a b) c = join a (join b c) ∧ join a a = a ∧ join a any = any) ∧
    IsLUB {a, b} (join a b) ∧
    (Literal.sequence items).valueType = (Literal.sequence items').valueType ∧
    (Literal.mapping pairs).valueType = (Literal.mapping pairs').valueType ∧
    joinStacks s s' = joinStacks s' s ∧
    Forall₂ (· ≤ ·) s (joinStacks s s') ∧ Forall₂ (· ≤ ·) s' (joinStacks s s') := by
  refine ⟨⟨sup_comm a b, sup_assoc a b c, sup_idem a, sup_eq_right.2 (Below.any a)⟩, isLUB_pair, ?_, ?_, ?_, ?_⟩
  · rw [Literal.valueType, Literal.valueType, Literal.itemTypes_eq, Literal.itemTypes_eq, joinAll_perm (hitems.map _)]
  · simp only [Literal.valueType, Literal.keyTypes_eq, Literal.valueTypes_eq]
    rw [joinAll_perm (hpairs.map _), joinAll_perm (hpairs.map _)]
  · rw [joinStacks, joinStacks, if_pos hdepth, if_pos hdepth.symm]
    exact zipWith_comm_of_comm sup_comm
  · rw [joinStacks, if_pos hdepth]
    exact forall₂_le_zipWith hdepth

theorem join_isLUB_numbers : let s := [int, list nonNegInt, str]; let s' := [nonNegInt, list int, bytes]
    [Literal.int 1, .int (-1)] ~ [.int (-1), .int 1] ∧ s.length = s'.length ∧
    IsLUB {list nonNegInt, list int} (list int) ∧ (Literal.sequence [.int (-1), .int 1]).valueType = list int ∧
    joinStacks s' s = [int, list int, any] ∧ Forall₂ (· ≤ ·) s' [int, list int, any] := by
  intro s s'
  have hitems : [Literal.int 1, .int (-1)] ~ [.int (-1), .int 1] := .swap _ _ _
  obtain ⟨-, hleast, hsequence, -, hstacks, -, habove⟩ :=
    join_isLUB (list nonNegInt) (list int) any hitems (.refl []) (show s.length = s'.length from rfl)
  exact ⟨hitems, rfl, hleast, hsequence.symm.trans rfl, hstacks.symm.trans rfl, habove⟩

end ValueType

end NeoScript
