/-!
# Insertion-ordered tables

A `Table` maps keys to values and remembers the order in which its keys were first inserted. Inserting
a key again replaces its value and leaves its place alone, so the position of a key is stable and can
serve as a slot number.

The keys of a table are distinct, and the type says so.
-/

namespace NeoScript

/-- A finite map whose keys stand in the order of their first insertion. -/
structure Table (κ α : Type) where
  /-- The pairs, oldest key first. -/
  entries : List (κ × α)
  /-- No key occurs twice. -/
  nodup : (entries.map Prod.fst).Nodup

namespace Table

variable {κ α : Type} [DecidableEq κ]

/-- The table without keys. -/
def empty : Table κ α := ⟨[], List.nodup_nil⟩

instance : Inhabited (Table κ α) := ⟨empty⟩
instance : EmptyCollection (Table κ α) := ⟨empty⟩

/-- The number of keys. -/
def size (t : Table κ α) : Nat := t.entries.length

/-- The keys, oldest first. -/
def keys (t : Table κ α) : List κ := t.entries.map Prod.fst

/-- The value of `k`. -/
def get? (t : Table κ α) (k : κ) : Option α :=
  (t.entries.find? fun e => e.1 == k).map Prod.snd

/-- Whether `k` is a key. -/
def contains (t : Table κ α) (k : κ) : Bool := (t.get? k).isSome

/-- The place of `k` among the keys, with its value. -/
def slot? (t : Table κ α) (k : κ) : Option (Nat × α) :=
  (t.entries.findIdx? fun e => e.1 == k).bind fun i => (t.entries[i]?).map fun e => (i, e.2)

/-! ### Insertion -/

/-- Replaces the value of `k` where `k` stands, or adds the pair at the end. -/
def put (k : κ) (v : α) : List (κ × α) → List (κ × α)
  | [] => [(k, v)]
  | e :: rest => if e.1 = k then (k, v) :: rest else e :: put k v rest

theorem mem_keys_put (k : κ) (v : α) (l : List (κ × α)) (x : κ) :
    x ∈ (put k v l).map Prod.fst ↔ x = k ∨ x ∈ l.map Prod.fst := by
  induction l with
  | nil => simp [put]
  | cons e rest ih =>
    by_cases h : e.1 = k
    · simp [put, h]
    · simp only [put, h, if_false, List.map_cons, List.mem_cons, ih]
      grind

theorem nodup_put (k : κ) (v : α) {l : List (κ × α)} (h : (l.map Prod.fst).Nodup) :
    ((put k v l).map Prod.fst).Nodup := by
  induction l with
  | nil => simp [put]
  | cons e rest ih =>
    rw [List.map_cons, List.nodup_cons] at h
    by_cases he : e.1 = k
    · subst he
      simpa [put] using h
    · simp only [put, he, if_false, List.map_cons, List.nodup_cons]
      exact ⟨fun hm => ((mem_keys_put k v rest e.1).1 hm).elim he h.1, ih h.2⟩

/-- The table in which `k` has the value `v`. -/
def insert (t : Table κ α) (k : κ) (v : α) : Table κ α := ⟨put k v t.entries, nodup_put k v t.nodup⟩

theorem find?_put_self (k : κ) (v : α) (l : List (κ × α)) :
    (put k v l).find? (fun e => e.1 == k) = some (k, v) := by
  induction l with
  | nil => simp [put]
  | cons e rest ih =>
    by_cases h : e.1 = k
    · simp [put, h]
    · simp [put, h, ih]

theorem find?_put_of_ne {k k' : κ} (hne : k' ≠ k) (v : α) (l : List (κ × α)) :
    (put k v l).find? (fun e => e.1 == k') = l.find? fun e => e.1 == k' := by
  have hk : (k == k') = false := by simpa using fun h : k = k' => hne h.symm
  induction l with
  | nil => simp [put, hk]
  | cons e rest ih =>
    by_cases h : e.1 = k
    · simp [put, h, hk]
    · by_cases h' : e.1 = k'
      · simp [put, h', hne]
      · simp [put, h, h', ih]

@[simp] theorem get?_insert_self (t : Table κ α) (k : κ) (v : α) : (t.insert k v).get? k = some v := by
  simp [get?, insert, find?_put_self]

theorem get?_insert_of_ne (t : Table κ α) {k k' : κ} (hne : k' ≠ k) (v : α) :
    (t.insert k v).get? k' = t.get? k' := by
  simp [get?, insert, find?_put_of_ne hne]

/-- The table built from `l` by inserting its pairs from left to right. -/
def ofList (l : List (κ × α)) : Table κ α := l.foldl (fun t e => t.insert e.1 e.2) empty

/-! ### Removal and update in place -/

/-- Gives every key the value that `f` computes for it; a key without one is dropped. -/
def filterMap (t : Table κ α) (f : κ → α → Option α) : Table κ α where
  entries := t.entries.filterMap fun e => (f e.1 e.2).map fun v => (e.1, v)
  nodup := by
    refine List.Pairwise.sublist ?_ t.nodup
    induction t.entries with
    | nil => exact List.Sublist.slnil
    | cons e rest ih =>
      cases h : f e.1 e.2 with
      | none => simpa [h] using ih.cons e.1
      | some v => simpa [h] using ih

/-- The table without the key `k`. -/
def erase (t : Table κ α) (k : κ) : Table κ α := t.filterMap fun k' v => if k' = k then none else some v

/-- The table in which every value went through `f`. -/
def map (t : Table κ α) (f : α → α) : Table κ α := t.filterMap fun _ v => some (f v)

end Table

end NeoScript
