import NeoScript.CodeMap.Basic
import NeoScript.ValueType
import Std.Data.ExtTreeMap

/-!
# The shadow stack

While code is emitted the compiler follows the types on the operand stack. Each change is recorded with the
instruction that caused it, so the stack at an earlier address can be looked up even after code was moved.

Recording a change for the instruction that has the latest record replaces that record. An index says for each
instruction which record is its latest one. A shadow stack carries the proof that its index is right, so a look-up by
the index finds a record.
-/

namespace NeoScript

/-! ### Records -/

/-- The records of a shadow stack. -/
structure History where
  /-- The stack right after an instruction, the latest record first. -/
  snapshots : List (Handle × List ValueType) := []
  /-- The latest record of an instruction, counted from the oldest record. -/
  index : Std.ExtTreeMap Handle Nat := ∅

namespace History

/-- The latest record of an instruction, counted from the oldest record. -/
def latest? : List (Handle × List ValueType) → Handle → Option Nat
  | [], _ => none
  | e :: rest, h => if e.1 = h then some rest.length else latest? rest h

/-- The index points to the latest record of every instruction. -/
def Indexed (r : History) : Prop := ∀ h, r.index[h]? = latest? r.snapshots h

theorem indexed_empty : Indexed {} := fun _ => Std.ExtTreeMap.getElem?_empty

theorem latest?_lt {snapshots : List (Handle × List ValueType)} {h : Handle} {i : Nat}
    (hi : latest? snapshots h = some i) : i < snapshots.length := by
  induction snapshots with
  | nil => cases hi
  | cons e rest ih =>
    rw [latest?] at hi
    split at hi
    · exact Option.some.inj hi ▸ Nat.lt_succ_self _
    · exact Nat.lt_succ_of_lt (ih hi)

theorem find?_eq_none {snapshots : List (Handle × List ValueType)} {h : Handle} (hn : latest? snapshots h = none) :
    (snapshots.find? fun e => e.1 == h) = none := by
  induction snapshots with
  | nil => rfl
  | cons e rest ih =>
    rw [latest?] at hn
    split at hn
    · cases hn
    · next he => rw [List.find?_cons_of_neg (by simpa using he), ih hn]

theorem find?_of_latest? {snapshots : List (Handle × List ValueType)} {h : Handle} {i : Nat}
    (hi : latest? snapshots h = some i) :
    (snapshots.find? fun e => e.1 == h) = some (snapshots.get (Fin.rev ⟨i, latest?_lt hi⟩)) := by
  induction snapshots with
  | nil => cases hi
  | cons e rest ih =>
    have hcases := hi
    rw [latest?] at hcases
    split at hcases
    · next he =>
      cases hcases
      simp [he, Fin.rev]
    · next he =>
      have hlt := latest?_lt hcases
      rw [List.find?_cons_of_neg (by simpa using he), ih hcases]
      have hplace : rest.length + 1 - (i + 1) = rest.length - (i + 1) + 1 := by omega
      simp [Fin.rev, hplace]

/-- Records a stack for an instruction. -/
def record (r : History) (h : Handle) (items : List ValueType) : History :=
  match r.snapshots with
  | (h', old) :: rest =>
    if h' = h then { r with snapshots := (h, items) :: rest }
    else { snapshots := (h, items) :: (h', old) :: rest, index := r.index.insert h (rest.length + 1) }
  | [] => { snapshots := [(h, items)], index := r.index.insert h 0 }

theorem Indexed.insert {index : Std.ExtTreeMap Handle Nat} {snapshots : List (Handle × List ValueType)}
    (hr : Indexed ⟨snapshots, index⟩) (h : Handle) (items : List ValueType) :
    Indexed ⟨(h, items) :: snapshots, index.insert h snapshots.length⟩ := by
  intro x
  change (index.insert h snapshots.length)[x]? = if h = x then _ else _
  rw [Std.ExtTreeMap.getElem?_insert]
  by_cases hx : h = x
  · rw [if_pos (Nat.compare_eq_eq.2 hx), if_pos hx]
  · rw [if_neg (mt Nat.compare_eq_eq.1 hx), if_neg hx]
    exact hr x

theorem Indexed.record {r : History} (hr : r.Indexed) (h : Handle) (items : List ValueType) :
    (r.record h items).Indexed := by
  obtain ⟨snapshots, index⟩ := r
  unfold History.record
  cases snapshots with
  | nil => exact hr.insert h items
  | cons e rest =>
    dsimp only
    split
    · next he => exact fun x => (hr x).trans (by rw [latest?, latest?, he])
    · exact hr.insert h items

/-- The index of some records, from the oldest to the latest, and their number. -/
def indexAll (snapshots : List (Handle × List ValueType)) : Std.ExtTreeMap Handle Nat × Nat :=
  snapshots.foldr (fun e acc => (acc.1.insert e.1 acc.2, acc.2 + 1)) (∅, 0)

/-- Works the index out anew. -/
def reindex (snapshots : List (Handle × List ValueType)) : History := ⟨snapshots, (indexAll snapshots).1⟩

theorem indexAll_snd (snapshots : List (Handle × List ValueType)) : (indexAll snapshots).2 = snapshots.length := by
  induction snapshots with
  | nil => rfl
  | cons e rest ih => exact congrArg (· + 1) ih

theorem indexed_reindex (snapshots : List (Handle × List ValueType)) : (reindex snapshots).Indexed := by
  induction snapshots with
  | nil => exact indexed_empty
  | cons e rest ih =>
    have hinsert := ih.insert e.1 e.2
    rw [← indexAll_snd] at hinsert
    exact hinsert

end History

/-- The types on the operand stack and their history. -/
structure ShadowStack extends History where
  /-- The present stack, its top first. -/
  items : List ValueType := []
  indexed : toHistory.Indexed := by exact History.indexed_empty

/-- A state of a shadow stack to go back to. -/
structure StackCheckpoint where
  /-- The number of records. -/
  snapshots : Nat
  items : List ValueType
  deriving Repr

namespace ShadowStack

instance : Inhabited ShadowStack := ⟨{}⟩

/-- The number of items. -/
def depth (s : ShadowStack) : Nat := s.items.length

/-- The type at a depth, zero being the top; below the bottom nothing is known. -/
def peek (s : ShadowStack) (depth : Nat) : ValueType := (s.items[depth]?).getD .any

/-! ### Changes -/

/-- Records the present stack for an instruction. -/
def record (s : ShadowStack) : Option Handle → ShadowStack
  | none => s
  | some h => ⟨s.toHistory.record h s.items, s.items, s.indexed.record h s.items⟩

@[simp] theorem items_record (s : ShadowStack) (after : Option Handle) : (s.record after).items = s.items := by
  cases after <;> rfl

/-- Puts a type on top. -/
def push (s : ShadowStack) (after : Option Handle) (t : ValueType) : ShadowStack :=
  { s with items := t :: s.items }.record after

@[simp] theorem items_push (s : ShadowStack) (after : Option Handle) (t : ValueType) :
    (s.push after t).items = t :: s.items := by
  simp [push]

/-- Takes the item at a depth out; a stack that is too short stays as it is. -/
def remove (s : ShadowStack) (after : Option Handle) (depth : Nat) : ShadowStack :=
  if depth < s.items.length then { s with items := s.items.eraseIdx depth }.record after else s

/-- Takes the top off. -/
def pop (s : ShadowStack) (after : Option Handle) : ShadowStack := s.remove after 0

@[simp] theorem items_pop (s : ShadowStack) (after : Option Handle) : (s.pop after).items = s.items.tail := by
  unfold pop remove
  split
  · simp
  · next h => simp [List.eq_nil_of_length_eq_zero (Nat.eq_zero_of_not_pos h)]

/-- Takes `count` items off. -/
def popN (s : ShadowStack) (after : Option Handle) : Nat → ShadowStack
  | 0 => s
  | count + 1 => (s.pop after).popN after count

/-- Moves the deepest of some items to the top. -/
def lift (items : List ValueType) : List ValueType := items.getLast?.toList ++ items.dropLast

/-- Reorders the top `count` items: turns them upside down, or lifts the deepest of them to the top. -/
def reverse (s : ShadowStack) (after : Option Handle) (count : Nat) (rotate : Bool) : ShadowStack :=
  let top := s.items.take count
  { s with items := (if rotate then lift top else top.reverse) ++ s.items.drop count }.record after

/-- Replaces the whole stack. -/
def replace (s : ShadowStack) (after : Option Handle) (items : List ValueType) : ShadowStack :=
  { s with items }.record after

@[simp] theorem items_replace (s : ShadowStack) (after : Option Handle) (items : List ValueType) :
    (s.replace after items).items = items := by
  simp [replace]

/-! ### History -/

/-- The stack recorded for an instruction. -/
def recorded? (s : ShadowStack) (h : Handle) : Option (List ValueType) :=
  match hi : s.index[h]? with
  | some i => some (s.snapshots.get (Fin.rev ⟨i, History.latest?_lt ((s.indexed h).symm.trans hi)⟩)).2
  | none => none

/-- A look-up by the index finds the latest record. -/
theorem recorded?_eq (s : ShadowStack) (h : Handle) :
    s.recorded? h = (s.snapshots.find? fun e => e.1 == h).map Prod.snd := by
  unfold recorded?
  split
  · next i hi => rw [History.find?_of_latest? ((s.indexed h).symm.trans hi), Option.map_some]
  · next hi => rw [History.find?_eq_none ((s.indexed h).symm.trans hi), Option.map_none]

/-- The index is determined by the records. -/
theorem ext_snapshots {s s' : ShadowStack} (hs : s.snapshots = s'.snapshots) (hi : s.items = s'.items) : s = s' := by
  obtain ⟨⟨snapshots, index⟩, items, indexed⟩ := s
  obtain ⟨⟨snapshots', index'⟩, items', indexed'⟩ := s'
  obtain rfl : snapshots = snapshots' := hs
  obtain rfl : items = items' := hi
  obtain rfl : index = index' := Std.ExtTreeMap.ext_getElem? fun h => (indexed h).trans (indexed' h).symm
  rfl

/-- The stack recorded for the latest of the first `count` live instructions that has a record. -/
def recordedBefore (s : ShadowStack) (m : CodeMap) : Nat → List ValueType
  | 0 => []
  | count + 1 =>
    match (m.order[count]?).bind s.recorded? with
    | some items => items
    | none => s.recordedBefore m count

/-- The stack right after the instruction at `address`, or after the last one if the address lies behind it. -/
def snapshot (s : ShadowStack) (address : Nat) (m : CodeMap) : List ValueType :=
  s.recordedBefore m <|
    match (m.covering? address).bind m.position? with
    | some i => i + 1
    | none => m.length

/-- Forgets the records of removed instructions and of those at or after `address`, and goes back to the stack
at that address. -/
def restore (s : ShadowStack) (address : Nat) (m : CodeMap) : ShadowStack :=
  let kept := s.snapshots.filter fun e =>
    match m.start? e.1 with
    | some a => decide (a < address)
    | none => false
  let s : ShadowStack := ⟨.reindex kept, s.items, History.indexed_reindex kept⟩
  { s with items := s.snapshot address m }

/-- A point to come back to. -/
def checkpoint (s : ShadowStack) : StackCheckpoint := ⟨s.snapshots.length, s.items⟩

/-- Drops the records made since the checkpoint and takes its stack back. -/
def rollback (s : ShadowStack) (c : StackCheckpoint) : ShadowStack :=
  let kept := s.snapshots.drop (s.snapshots.length - c.snapshots)
  ⟨.reindex kept, c.items, History.indexed_reindex kept⟩

end ShadowStack

end NeoScript
