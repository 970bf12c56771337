import Mathlib.Tactic.Lemma
import NeoScript.Table

/-!
# Looking up in tables

What each operation on a table does to the value of a key. A table has a key at most once, so its value is the
one that stands beside it among the entries.
-/

namespace NeoScript.Table

open List Option

variable {κ α : Type} [DecidableEq κ]

lemma get?_eq_some_iff {t : Table κ α} {k : κ} {v : α} : t.get? k = some v ↔ (k, v) ∈ t.entries := by
  unfold get?
  have hnd := t.nodup
  revert hnd
  generalize t.entries = l
  intro hnd
  induction l with
  | nil => simp
  | cons e rest ih =>
    rw [map_cons, nodup_cons] at hnd
    by_cases he : e.1 = k
    · subst he
      have hnot : (e.1, v) ∉ rest := fun hm => hnd.1 (mem_map.2 ⟨_, hm, rfl⟩)
      simp only [find?_cons, beq_self_eq_true, map_some, some.injEq, mem_cons]
      constructor
      · rintro rfl
        exact Or.inl rfl
      · rintro (h | h)
        · rw [← h]
        · exact absurd h hnot
    · have hb : (e.1 == k) = false := by simpa using he
      have hne : (k, v) ≠ e := fun h => he (by rw [← h])
      simp only [find?_cons, hb, mem_cons, hne, false_or]
      exact ih hnd.2

lemma get?_eq_none_iff {t : Table κ α} {k : κ} : t.get? k = none ↔ ∀ v, (k, v) ∉ t.entries := by
  constructor
  · intro h v hm
    rw [get?_eq_some_iff.2 hm] at h
    cases h
  · intro h
    cases hg : t.get? k with
    | none => rfl
    | some v => exact absurd (get?_eq_some_iff.1 hg) (h v)

lemma get?_insert (t : Table κ α) (k k' : κ) (v : α) : (t.insert k v).get? k' = if k' = k then some v else t.get? k' := by
  split
  · next h => rw [h, get?_insert_self]
  · next h => rw [get?_insert_of_ne t h]

lemma get?_filterMap (t : Table κ α) (f : κ → α → Option α) (k : κ) : (t.filterMap f).get? k = (t.get? k).bind (f k) := by
  cases hg : t.get? k with
  | none =>
    rw [bind_none, get?_eq_none_iff]
    intro v hm
    simp only [filterMap, mem_filterMap, map_eq_some_iff, Prod.mk.injEq] at hm
    obtain ⟨⟨k0, v0⟩, hm, v1, -, rfl, -⟩ := hm
    exact get?_eq_none_iff.1 hg _ hm
  | some v =>
    have hm := get?_eq_some_iff.1 hg
    cases hf : f k v with
    | none =>
      rw [bind_some, hf, get?_eq_none_iff]
      intro w hw
      simp only [filterMap, mem_filterMap, map_eq_some_iff, Prod.mk.injEq] at hw
      obtain ⟨⟨k0, v0⟩, hm0, v1, hv1, rfl, -⟩ := hw
      have hsame : v0 = v := some.inj ((get?_eq_some_iff.2 hm0).symm.trans hg)
      simp only [hsame, hf] at hv1
      cases hv1
    | some w =>
      rw [bind_some, hf, get?_eq_some_iff]
      simp only [filterMap, mem_filterMap, map_eq_some_iff, Prod.mk.injEq]
      exact ⟨(k, v), hm, w, hf, rfl, rfl⟩

omit [DecidableEq κ] in
lemma ext_entries {t t' : Table κ α} (h : t.entries = t'.entries) : t = t' := by
  cases t
  cases t'
  cases h
  rfl

omit [DecidableEq κ] in
lemma filterMap_eq_self {t : Table κ α} {f : κ → α → Option α} (h : ∀ e ∈ t.entries, f e.1 e.2 = some e.2) :
    t.filterMap f = t := by
  apply ext_entries
  change t.entries.filterMap _ = t.entries
  revert h
  generalize t.entries = l
  intro h
  induction l with
  | nil => rfl
  | cons e l ih =>
    rw [filterMap_cons, h e mem_cons_self, map_some, ih fun e he => h e (mem_cons_of_mem _ he)]

lemma filter_eq_self {t : Table κ α} {k : κ} (h : t.get? k = none) : t.entries.filter (fun e => e.1 ≠ k) = t.entries :=
  List.filter_eq_self.2 fun e he => by
    rw [decide_eq_true_eq]
    rintro rfl
    exact get?_eq_none_iff.1 h e.2 he

lemma get?_of_filter {t t' : Table κ α} {k k' : κ} {v : α}
    (h : t'.entries.filter (fun e => e.1 ≠ k) = t.entries.filter fun e => e.1 ≠ k) (hne : k' ≠ k) :
    t'.get? k' = some v ↔ t.get? k' = some v := by
  have hmem : ∀ t : Table κ α, t.get? k' = some v ↔ (k', v) ∈ t.entries.filter fun e => e.1 ≠ k := fun t => by
    rw [get?_eq_some_iff, mem_filter]
    simp [hne]
  rw [hmem, hmem, h]

/-- The pairs of other keys than `k`, if the values of those keys stay. -/
lemma filter_filterMap {t : Table κ α} {f : κ → α → Option α} {k : κ}
    (h : ∀ e ∈ t.entries, e.1 ≠ k → f e.1 e.2 = some e.2) :
    (t.filterMap f).entries.filter (fun e => e.1 ≠ k) = t.entries.filter fun e => e.1 ≠ k := by
  change (t.entries.filterMap _).filter _ = _
  revert h
  generalize t.entries = l
  intro h
  induction l with
  | nil => rfl
  | cons e l ih =>
    have ih := ih fun e he => h e (mem_cons_of_mem _ he)
    by_cases hk : e.1 = k
    · rw [filterMap_cons, filter_cons, if_neg (by simpa using hk), ← ih]
      cases f e.1 e.2 with
      | none => rfl
      | some v => rw [map_some, filter_cons, if_neg (by simpa using hk)]
    · rw [filterMap_cons, h e mem_cons_self hk, map_some, filter_cons, filter_cons, ih]

@[simp] lemma get?_erase (t : Table κ α) (k k' : κ) : (t.erase k).get? k' = if k' = k then none else t.get? k' := by
  rw [erase, get?_filterMap]
  cases t.get? k' with
  | none => simp
  | some v => simp only [bind_some]

@[simp] lemma get?_map (t : Table κ α) (f : α → α) (k : κ) : (t.map f).get? k = (t.get? k).map f := by
  rw [map, get?_filterMap]
  cases t.get? k <;> rfl

lemma get?_ofList_eq_some {l : List (κ × α)} {k : κ} {v : α} (h : (ofList l).get? k = some v) : (k, v) ∈ l := by
  suffices hgen : ∀ t : Table κ α, (l.foldl (fun t e => t.insert e.1 e.2) t).get? k = some v →
      (k, v) ∈ l ∨ t.get? k = some v by
    rcases hgen empty h with h | h
    · exact h
    · cases h
  clear h
  induction l with
  | nil => exact fun t h => Or.inr h
  | cons e rest ih =>
    intro t h
    rcases ih (t.insert e.1 e.2) h with h | h
    · exact Or.inl (mem_cons_of_mem _ h)
    · rw [get?_insert] at h
      split at h
      · next hk =>
        rw [hk, ← some.inj h]
        exact Or.inl mem_cons_self
      · exact Or.inr h

lemma get?_ofList_isSome {l : List (κ × α)} {k : κ} : ((ofList l).get? k).isSome ↔ ∃ v, (k, v) ∈ l := by
  suffices hgen : ∀ t : Table κ α, ((l.foldl (fun t e => t.insert e.1 e.2) t).get? k).isSome ↔
      (∃ v, (k, v) ∈ l) ∨ (t.get? k).isSome by
    refine (hgen empty).trans ⟨fun h => h.elim id fun h => ?_, Or.inl⟩
    cases h
  induction l with
  | nil => simp
  | cons e rest ih =>
    intro t
    rw [foldl_cons, ih, get?_insert]
    by_cases hk : k = e.1
    · subst hk
      simp only [if_true, isSome_some, or_true, true_iff]
      exact Or.inl ⟨e.2, mem_cons_self⟩
    · have hne : ∀ v, (k, v) ≠ e := fun v h => hk (by rw [← h])
      simp [hk, hne]

lemma put_eq_append {k : κ} (v : α) {l : List (κ × α)} (h : k ∉ l.map Prod.fst) : put k v l = l ++ [(k, v)] := by
  induction l with
  | nil => rfl
  | cons e rest ih =>
    rw [map_cons, mem_cons, not_or] at h
    rw [put, if_neg (Ne.symm h.1), ih h.2, cons_append]

/-- Pairs with different keys stand in their table as they were given. -/
lemma entries_ofList {l : List (κ × α)} (h : (l.map Prod.fst).Nodup) : (ofList l).entries = l := by
  suffices hgen : ∀ t : Table κ α, (∀ k ∈ l.map Prod.fst, k ∉ t.entries.map Prod.fst) →
      (l.foldl (fun t e => t.insert e.1 e.2) t).entries = t.entries ++ l by
    exact hgen empty fun _ _ => not_mem_nil
  induction l with
  | nil => simp
  | cons e rest ih =>
    intro t hnew
    rw [map_cons, nodup_cons] at h
    have hput : (t.insert e.1 e.2).entries = t.entries ++ [e] := put_eq_append e.2 (hnew e.1 (by simp))
    rw [foldl_cons, ih h.2 (t.insert e.1 e.2), hput, append_assoc, singleton_append]
    intro k hk
    rw [hput, map_append, mem_append, map_singleton, mem_singleton, not_or]
    exact ⟨hnew k (by simp only [map_cons, mem_cons, hk, or_true]), fun hke => h.1 (hke ▸ hk)⟩

end NeoScript.Table
