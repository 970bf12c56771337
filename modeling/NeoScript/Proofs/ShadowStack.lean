import NeoScript.Proofs.CodeMap.Edits

/-!
# The history of a shadow stack

A look-up goes back from an address to the nearest instruction with a record. Both ways of forgetting are described by
what a look-up finds afterwards: `restore` forgets what was recorded from an address on, and `rollback` takes back the
records made since a checkpoint, except that a record from before it may have been overwritten.
-/

namespace NeoScript.ShadowStack

open List CodeMap Option

variable {s : ShadowStack} {m : CodeMap}

/-! ### Looking up -/

/-- Whether a live instruction starts at or before an address. -/
def startsBy (m : CodeMap) (a : Nat) (h : Handle) : Bool := (m.start? h).any fun b => decide (b ≤ a)

lemma recordedBefore_eq (s : ShadowStack) (m : CodeMap) (count : Nat) :
    s.recordedBefore m count = (((m.live.take count).filterMap s.recorded?).getLast?).getD [] := by
  induction count with
  | zero => simp [recordedBefore]
  | succ count ih =>
    rw [recordedBefore, take_add_one, filterMap_append, live, Array.getElem?_toList, ih]
    cases m.order[count]? with
    | none => simp [live]
    | some h => cases hr : s.recorded? h <;> simp [hr, live]

/-- What starts by an address is the instruction there and what comes before it, or everything. -/
lemma filter_startsBy (hl : m.Laid) (a : Nat) : m.live.filter (startsBy m a) =
    m.live.take (((m.covering? a).bind m.position?).elim m.length (· + 1)) := by
  have hstart : ∀ {pre h post}, m.live = pre ++ h :: post → startsBy m a h = decide (span m.arena pre ≤ a) := by
    intro pre h post hs
    rw [startsBy, hl.start?_split hs]
    rfl
  by_cases ha : m.size ≤ a
  · rw [covering?, if_pos ha]
    change _ = m.live.take m.live.length
    rw [take_length, filter_eq_self]
    intro h hm
    obtain ⟨pre, post, hs⟩ := append_of_mem hm
    rw [hl.size, hs, span_append] at ha
    rw [hstart hs, decide_eq_true_eq]
    omega
  · obtain ⟨pre, h, post, hs, hle, hlt⟩ := exists_covering (hl.size ▸ Nat.not_le.1 ha)
    have hpre : pre.filter (startsBy m a) = pre := filter_eq_self.2 fun x hx => by
      obtain ⟨as, bs, rfl⟩ := append_of_mem hx
      rw [span_append] at hle
      rw [hstart (hs.trans (append_assoc as (x :: bs) (h :: post))), decide_eq_true_eq]
      omega
    have hpost : post.filter (startsBy m a) = [] := filter_eq_nil_iff.2 fun x hx => by
      obtain ⟨as, bs, rfl⟩ := append_of_mem hx
      rw [hstart (hs.trans (append_assoc pre (h :: as) (x :: bs)).symm), decide_eq_true_eq, span_append, span_cons]
      omega
    rw [hl.covering?_inside hs hle hlt, bind_some, hl.position?_split hs, elim_some, hs, append_cons,
      take_left' (by simp), filter_append, filter_append, hpre, hpost, append_nil,
      filter_cons_of_pos ((hstart hs).trans (decide_eq_true hle)), filter_nil]

/-- **What a look-up finds**: the last record among those of the instructions that start by the address. -/
lemma snapshot_eq (hl : m.Laid) (s : ShadowStack) (a : Nat) : s.snapshot a m =
    ((m.live.filterMap fun h => if startsBy m a h then s.recorded? h else none).getLast?).getD [] := by
  rw [← filterMap_filter, filter_startsBy hl, ← recordedBefore_eq, snapshot]
  cases (m.covering? a).bind m.position? <;> rfl

/-! ### Restoring -/

lemma recorded?_restore (s : ShadowStack) (m : CodeMap) (a : Nat) (h : Handle) :
    (s.restore (a + 1) m).recorded? h = if startsBy m a h then s.recorded? h else none := by
  have hkept : (s.restore (a + 1) m).snapshots = s.snapshots.filter fun e => startsBy m a e.1 :=
    filter_congr fun e _ => by
      cases hs : m.start? e.1 with
      | none => simp [startsBy, hs]
      | some b =>
        rw [startsBy, hs]
        exact decide_eq_decide.2 Nat.lt_succ_iff
  rw [recorded?_eq, recorded?_eq, hkept, find?_filter]
  split_ifs with hh
  · congr 2
    funext e
    by_cases he : e.1 = h <;> simp [he, hh]
  · rw [find?_eq_none.2, map_none]
    intro e _ hp
    simp only [decide_eq_true_eq, beq_iff_eq] at hp
    exact hh (hp.2 ▸ hp.1)

/-- **Restoring forgets what comes from an address on.** A look-up behind it finds what is there right before it, and the
present stack is that. At the start, everything is forgotten, by the index too. -/
theorem restore_forgets (s : ShadowStack) (edits : List Edit) (a b : Nat) :
    let m := edited edits
    ((s.restore (a + 1) m).snapshot b m = s.snapshot (min b a) m ∧
      (s.restore (a + 1) m).items = (s.restore (a + 1) m).snapshot (a + 1) m) ∧ s.restore 0 m = {} := by
  intro m
  have hl : m.Laid := laid_edited edits
  have hnone : (s.restore 0 m).snapshots = [] := filter_eq_nil_iff.2 fun e _ => by
    cases m.start? e.1 <;> simp
  refine ⟨⟨?_, ?_⟩, ext_snapshots hnone ?_⟩
  · rw [snapshot_eq hl, snapshot_eq hl]
    congr 3
    funext h
    rw [recorded?_restore]
    cases hs : m.start? h with
    | none => simp [startsBy, hs]
    | some c => simp only [startsBy, hs, any_some, decide_eq_true_eq, Nat.le_min, ite_and]
  · rw [snapshot_eq hl]
    exact snapshot_eq hl _ (a + 1)
  · refine (snapshot_eq hl _ 0).trans (congrArg (fun l => (getLast? l).getD []) (filterMap_eq_nil_iff.2 fun h _ => ?_))
    refine ite_eq_right_iff.2 fun _ => (recorded?_eq _ h).trans ?_
    exact congrArg (fun l => (l.find? fun e => e.1 == h).map Prod.snd) hnone

/-! ### Rolling back -/

/-- A change of the stack. -/
inductive Change where
  | push (t : ValueType)
  | pop
  | remove (depth : Nat)
  | reverse (count : Nat) (rotate : Bool)
  | replace (items : List ValueType)

/-- Makes a change on account of an instruction, or of none. -/
def change (s : ShadowStack) (after : Option Handle) : Change → ShadowStack
  | .push t => s.push after t
  | .pop => s.pop after
  | .remove depth => s.remove after depth
  | .reverse count rotate => s.reverse after count rotate
  | .replace items => s.replace after items

/-- Makes changes one after the other. -/
def changeAll (s : ShadowStack) (cs : List (Option Handle × Change)) : ShadowStack :=
  cs.foldl (fun s c => s.change c.1 c.2) s

/-- The last state that changes lead through before they add a record. -/
def beforeRecord : ShadowStack → List (Option Handle × Change) → ShadowStack
  | s, [] => s
  | s, c :: cs =>
    if (s.change c.1 c.2).snapshots.length = s.snapshots.length then (s.change c.1 c.2).beforeRecord cs else s

/-- The same instructions have records, and only the latest record may be another one. -/
def Rewrites (s s' : ShadowStack) : Prop :=
  s'.snapshots.map Prod.fst = s.snapshots.map Prod.fst ∧ s'.snapshots.tail = s.snapshots.tail

lemma Rewrites.length {s s' : ShadowStack} (h : Rewrites s s') : s'.snapshots.length = s.snapshots.length := by
  simpa using congrArg List.length h.1

lemma record_cases (s : ShadowStack) (after : Option Handle) (items : List ValueType) :
    Rewrites s ({ s with items }.record after) ∨ ∃ e, ({ s with items }.record after).snapshots = e :: s.snapshots := by
  unfold Rewrites
  cases after with
  | none => exact .inl ⟨rfl, rfl⟩
  | some h =>
    simp only [record, History.record]
    cases hs : s.snapshots with
    | nil => exact .inr ⟨_, rfl⟩
    | cons e rest =>
      by_cases he : e.1 = h
      · exact .inl (by simp [he])
      · exact .inr (by simp [he])

/-- A change overwrites the latest record or adds one, if it records anything. -/
lemma change_cases (s : ShadowStack) (after : Option Handle) (c : Change) :
    Rewrites s (s.change after c) ∨ ∃ e, (s.change after c).snapshots = e :: s.snapshots := by
  cases c with
  | push t | reverse count rotate | replace items => exact record_cases s after _
  | pop | remove depth =>
    simp only [change, pop, remove]
    split_ifs
    · exact record_cases s after _
    · exact .inl ⟨rfl, rfl⟩

/-- The old records after changes are those of the last state without a new one. -/
lemma snapshots_changeAll (s : ShadowStack) (cs : List (Option Handle × Change)) :
    Rewrites s (s.beforeRecord cs) ∧ ∃ new, (s.changeAll cs).snapshots = new ++ (s.beforeRecord cs).snapshots := by
  induction cs generalizing s with
  | nil => exact ⟨⟨rfl, rfl⟩, [], rfl⟩
  | cons c cs ih =>
    obtain ⟨hr, new, hnew⟩ := ih (s.change c.1 c.2)
    rw [beforeRecord]
    rcases change_cases s c.1 c.2 with h | ⟨e, he⟩
    · rw [if_pos h.length]
      exact ⟨⟨hr.1.trans h.1, hr.2.trans h.2⟩, new, hnew⟩
    · -- The new record is the latest from now on, and none below it changes.
      rw [if_neg (by rw [he, length_cons]; omega)]
      obtain ⟨latest, rest, hlatest⟩ := exists_cons_of_length_eq_add_one (hr.length.trans (congrArg List.length he))
      obtain rfl : rest = s.snapshots := by simpa [hlatest, he] using hr.2
      exact ⟨⟨rfl, rfl⟩, new ++ [latest], by rw [append_assoc]; exact hnew.trans (congrArg (new ++ ·) hlatest)⟩

/-- **Rolling back is exact unless an old record was overwritten.** After any changes since a checkpoint, going back to it
gives the state of then, with its stack, its records and their index, if and only if its records were still there when
the first new one was added. -/
theorem rollback_exact_iff (s : ShadowStack) (cs : List (Option Handle × Change)) :
    (s.changeAll cs).rollback s.checkpoint = s ↔ (s.beforeRecord cs).snapshots = s.snapshots := by
  obtain ⟨hr, new, hnew⟩ := snapshots_changeAll s cs
  have hkept : ((s.changeAll cs).rollback s.checkpoint).snapshots = (s.beforeRecord cs).snapshots := by
    change drop _ (s.changeAll cs).snapshots = _
    rw [checkpoint, hnew, length_append, hr.length, Nat.add_sub_cancel, drop_left]
  rw [← hkept]
  exact ⟨fun h => congrArg (fun s => s.snapshots) h, fun h => ext_snapshots h rfl⟩

end NeoScript.ShadowStack
