import Mathlib.Order.Bounds.Basic
import NeoScript.Proofs.CodeMap.Edits

/-!
# What control can reach

`Reaches` says by rules what control can reach: a live root, the destinations that a reached instruction names, and
the instruction behind it unless its opcode ends the flow. The search finds exactly that, which is the least set of
live instructions that holds the live entries and from which control does not lead out.
-/

namespace NeoScript.CodeMap

open List

variable {m : CodeMap} {h d : Handle} {root : Handle → Prop} {entries : List Handle}

/-- The live instructions that control can reach from the roots. -/
inductive Reaches (m : CodeMap) (root : Handle → Prop) : Handle → Prop
  | root {h : Handle} : root h → h ∈ m.live → Reaches m root h
  /-- Control passes to a live destination. -/
  | target {h d : Handle} {i : Instruction} : Reaches m root h → m.instruction? h = some i → d ∈ i.refs → d ∈ m.live →
      Reaches m root d
  /-- Control falls through. -/
  | next {h d : Handle} {i : Instruction} : Reaches m root h → m.instruction? h = some i → i.opcode.endsFlow = false →
      m.next? h = some d → Reaches m root d

lemma mem_successors (hl : m.Laid) : d ∈ m.successors h ↔ d ∈ m.live ∧ ∃ i, m.instruction? h = some i ∧
      (d ∈ i.refs ∨ i.opcode.endsFlow = false ∧ m.next? h = some d) := by
  unfold successors
  cases hi : m.instruction? h with
  | none => simp
  | some i =>
    have hfollow : d ∈ (if i.opcode.endsFlow = true then [] else (m.next? h).toList) ↔
        i.opcode.endsFlow = false ∧ m.next? h = some d := by
      cases i.opcode.endsFlow <;> simp
    simp only [mem_filter, mem_append, hl.contains_iff, hfollow, Option.some.injEq, exists_eq_left',
      Instruction.refs]
    exact and_comm

lemma mem_of_next? (hn : m.next? h = some d) : d ∈ m.live := by
  obtain ⟨k, -, hk⟩ := Option.bind_eq_some_iff.1 hn
  exact Array.mem_toList_iff.2 (Array.mem_of_getElem? hk)

lemma Reaches.mem (hr : m.Reaches root h) : h ∈ m.live := by
  cases hr with
  | root _ hm => exact hm
  | target _ _ _ hm => exact hm
  | next _ _ _ hn => exact mem_of_next? hn

/-- What is reached in one code map is reached in another that has it and in which control leads on as in the first. -/
lemma Reaches.transfer {m' : CodeMap} (hr : m.Reaches root h)
    (hlive : ∀ h, m.Reaches root h → h ∈ m'.live) (hinst : ∀ h, m.Reaches root h → m'.instruction? h = m.instruction? h)
    (hnext : ∀ h i, m.Reaches root h → m.instruction? h = some i → i.opcode.endsFlow = false →
      m'.next? h = m.next? h) : m'.Reaches root h := by
  induction hr with
  | root hh hm => exact .root hh (hlive _ (.root hh hm))
  | target hr hi hd hm ih => exact ih.target ((hinst _ hr).trans hi) hd (hlive _ (hr.target hi hd hm))
  | next hr hi hflow hn ih => exact ih.next ((hinst _ hr).trans hi) hflow ((hnext _ _ hr hi hflow).trans hn)

/-! ### The search -/

/-- What is marked stays marked, all that is to be visited gets marked, and with an instruction its successors. -/
lemma mark_closed (todo : List Handle) (seen : Std.HashSet Handle) :
    (∀ h, seen.contains h = true → (m.mark todo seen).contains h = true) ∧
    (∀ h ∈ todo, m.contains h = true → (m.mark todo seen).contains h = true) ∧ ∀ h, (m.mark todo seen).contains h = true →
      seen.contains h = true ∨ ∀ d ∈ m.successors h, (m.mark todo seen).contains d = true := by
  fun_induction mark m todo seen with
  | case1 seen => exact ⟨fun _ h => h, fun _ h => (by cases h), fun _ h => .inl h⟩
  | case2 seen h rest hv ih =>
    obtain ⟨hseen, htodo, hnext⟩ := ih
    refine ⟨fun x hx => hseen x (by simp [hx]), fun x hx hc => ?_, fun x hx => ?_⟩
    · rcases mem_cons.1 hx with rfl | hx
      · exact hseen x (by simp)
      · exact htodo x (mem_append_right _ hx) hc
    · rcases hnext x hx with hin | hsucc
      · rw [Std.HashSet.contains_insert, Bool.or_eq_true, beq_iff_eq] at hin
        rcases hin with rfl | hin
        · refine .inr fun d hd => htodo d (mem_append_left _ hd) ?_
          unfold successors at hd
          split at hd
          · cases hd
          · exact (mem_filter.1 hd).2
        · exact .inl hin
      · exact .inr hsucc
  | case3 seen h rest hv ih =>
    obtain ⟨hseen, htodo, hnext⟩ := ih
    refine ⟨hseen, fun x hx hc => ?_, hnext⟩
    rcases mem_cons.1 hx with rfl | hx
    · refine hseen x (Bool.not_eq_false _ ▸ fun hs => hv ⟨hc, hs⟩)
    · exact htodo x hx hc

/-- Whatever holds of what is to be visited and passes on to successors holds of all that is marked. -/
lemma mark_induction {P : Handle → Prop} (hnext : ∀ h d, P h → d ∈ m.successors h → P d) (todo : List Handle)
    (seen : Std.HashSet Handle) (htodo : ∀ h ∈ todo, m.contains h = true → P h)
    (hseen : ∀ h, seen.contains h = true → P h) : ∀ h, (m.mark todo seen).contains h = true → P h := by
  fun_induction mark m todo seen with
  | case1 seen => exact hseen
  | case2 seen h rest hv ih =>
    have hh : P h := htodo h mem_cons_self hv.1
    refine ih (fun x hx hc => ?_) fun x hx => ?_
    · rcases mem_append.1 hx with hx | hx
      · exact hnext h x hh hx
      · exact htodo x (mem_cons_of_mem _ hx) hc
    · rw [Std.HashSet.contains_insert, Bool.or_eq_true, beq_iff_eq] at hx
      rcases hx with rfl | hx
      · exact hh
      · exact hseen x hx
  | case3 seen h rest hv ih => exact ih (fun x hx => htodo x (mem_cons_of_mem _ hx)) hseen

lemma successor_reachable (hr : (m.reachable entries).contains h = true)
    (hd : d ∈ m.successors h) : (m.reachable entries).contains d = true := by
  rcases (mark_closed entries {}).2.2 h hr with hc | hsucc
  · simp at hc
  · exact hsucc d hd

/-- **The search finds exactly what control can reach.** -/
lemma reachable_iff (hl : m.Laid) : (m.reachable entries).contains h = true ↔ m.Reaches (· ∈ entries) h := by
  constructor
  · refine mark_induction (P := m.Reaches (· ∈ entries)) (fun h d hr hd => ?_) entries {} ?_ ?_ h
    · obtain ⟨hm, i, hi, hd | ⟨hflow, hn⟩⟩ := (mem_successors hl).1 hd
      · exact hr.target hi hd hm
      · exact hr.next hi hflow hn
    · exact fun h hh hc => .root hh (hl.contains_iff.1 hc)
    · simp
  · intro hr
    induction hr with
    | root hh hm => exact (mark_closed entries {}).2.1 _ hh (hl.contains_iff.2 hm)
    | target _ hi hd hm ih => exact successor_reachable ih ((mem_successors hl).2 ⟨hm, _, hi, .inl hd⟩)
    | next _ hi hflow hn ih =>
      exact successor_reachable ih ((mem_successors hl).2 ⟨mem_of_next? hn, _, hi, .inr ⟨hflow, hn⟩⟩)

/-! ### The least closed set -/

/-- A set of live instructions that holds the live entries and from which control does not lead out. -/
structure FlowClosed (m : CodeMap) (entries : List Handle) (s : Set Handle) : Prop where
  live : ∀ h ∈ s, h ∈ m.live
  entry : ∀ h ∈ entries, h ∈ m.live → h ∈ s
  /-- The destination of a jump or a call, and both halves of a protected region. -/
  target : ∀ h ∈ s, ∀ i ∈ m.instruction? h, ∀ d ∈ i.refs, d ∈ m.live → d ∈ s
  following : ∀ h ∈ s, ∀ i ∈ m.instruction? h, i.opcode.endsFlow = false → ∀ d, [h, d] <:+: m.live → d ∈ s

lemma Laid.next?_eq_some_iff (hl : m.Laid) (hm : h ∈ m.live) : m.next? h = some d ↔ [h, d] <:+: m.live := by
  constructor
  · intro hn
    obtain ⟨pre, post, hs⟩ := append_of_mem hm
    rw [hl.next?_split hs] at hn
    obtain ⟨post, rfl⟩ := head?_eq_some_iff.1 hn
    exact ⟨pre, post, by simp [hs]⟩
  · rintro ⟨pre, post, hs⟩
    have hsplit : m.live = pre ++ h :: d :: post := by simp [← hs]
    exact hl.next?_split hsplit

lemma Reaches.mem_of_closed (hl : m.Laid) {s : Set Handle} (hs : m.FlowClosed entries s)
    (hr : m.Reaches (· ∈ entries) h) : h ∈ s := by
  induction hr with
  | root hh hm => exact hs.entry _ hh hm
  | target _ hi hd hm ih => exact hs.target _ ih _ hi _ hd hm
  | next _ hi hflow hn ih => exact hs.following _ ih _ hi hflow _ ((hl.next?_eq_some_iff (hs.live _ ih)).1 hn)

lemma flowClosed_reaches (hl : m.Laid) (entries : List Handle) : m.FlowClosed entries {h | m.Reaches (· ∈ entries) h} where
  live _ hr := hr.mem
  entry _ hh hm := .root hh hm
  target _ hr _ hi _ hd hm := hr.target hi hd hm
  following _ hr _ hi hflow _ hn := hr.next hi hflow ((hl.next?_eq_some_iff hr.mem).2 hn)

lemma Reaches.mono {other : Handle → Prop} (hroot : ∀ h ∈ m.live, root h → other h)
    (hr : m.Reaches root h) : m.Reaches other h := by
  induction hr with
  | root hh hm => exact .root (hroot _ hm hh) hm
  | target _ hi hd hm ih => exact ih.target hi hd hm
  | next _ hi hflow hn ih => exact ih.next hi hflow hn

/-- **The search finds the least closed set.** In every code map that edits can make and from every list of entries,
what is found is the least set of live instructions that holds the live entries, with each member its live destinations
and, unless the member ends the flow, the live instruction behind it. More live entries lead to no less, so neither the
order of the entries nor repeated or dead ones matter. -/
theorem reachable_isLeast (edits : List Edit) (entries : List Handle) :
    let m := edited edits
    IsLeast {s | m.FlowClosed entries s} {h | (m.reachable entries).contains h = true} ∧
    (∀ more : List Handle, (∀ h ∈ m.live, h ∈ entries → h ∈ more) →
      ∀ h, (m.reachable entries).contains h = true → (m.reachable more).contains h = true) ∧
    ∀ other : List Handle, (∀ h ∈ m.live, h ∈ entries ↔ h ∈ other) →
      ∀ h, (m.reachable entries).contains h = (m.reachable other).contains h := by
  intro m
  have hl : m.Laid := laid_edited edits
  have hmono : ∀ few more : List Handle, (∀ h ∈ m.live, h ∈ few → h ∈ more) →
      ∀ h, (m.reachable few).contains h = true → (m.reachable more).contains h = true := by
    intro few more hsub h hr
    exact (reachable_iff hl).2 (((reachable_iff hl).1 hr).mono hsub)
  refine ⟨⟨?_, ?_⟩, hmono entries, fun other hsame h => ?_⟩
  · simp only [reachable_iff hl]
    exact flowClosed_reaches hl entries
  · intro s hs h hr
    exact ((reachable_iff hl).1 hr).mem_of_closed hl hs
  · exact Bool.eq_iff_iff.2 ⟨hmono _ _ (fun h hm => (hsame h hm).1) h, hmono _ _ (fun h hm => (hsame h hm).2) h⟩

end NeoScript.CodeMap
