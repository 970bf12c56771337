import NeoScript.Proofs.Generator.Excision

/-!
# Removing all new code

When everything that was emitted since a state is removed, the old code is as it was then: the calls that had
found the new method wait for it again. This happens when a method is taken back, and when the only instruction
of a method is removed.
-/

namespace NeoScript.Generator

open List Option CodeMap Instruction Opcode Table

variable {d : Handle} {m : String}

/-- The gap that is left when all new code goes. -/
def emptied (new : List Handle) : Gap := ⟨.ofList new, none⟩

lemma contains_emptied {new : List Handle} {h : Handle} : (emptied new).removed.contains h = true ↔ h ∈ new := by
  simp only [emptied, Std.HashSet.contains_ofList, contains_iff_mem]

lemma orphans_emptied_eq_some {new : List Handle} {g : Generator}
    (h : ((emptied new).orphans g).get? d = some m) : g.entries.get? m = some d ∧ d ∈ new := by
  have hm := get?_ofList_eq_some h
  simp only [List.mem_map, mem_filter, Prod.mk.injEq] at hm
  obtain ⟨e, ⟨he, hc⟩, rfl, rfl⟩ := hm
  exact ⟨get?_eq_some_iff.2 he, contains_emptied.1 hc⟩

lemma orphans_emptied_isSome {new : List Handle} {g : Generator}
    (he : g.entries.get? m = some d) (hd : d ∈ new) : (((emptied new).orphans g).get? d).isSome := by
  refine get?_ofList_isSome.2 ⟨m, ?_⟩
  simp only [List.mem_map, mem_filter, Prod.mk.injEq]
  exact ⟨(m, d), ⟨get?_eq_some_iff.1 he, contains_emptied.2 hd⟩, rfl, rfl⟩

/-- The generator `g'` is `g` without the new code, with the old code as it was in `b`. -/
structure Cleared (b : Generator) (new : List Handle) (g g' : Generator) : Prop where
  context : g'.context = g.context
  laid : g'.code.Laid
  live : g'.code.live = b.code.live
  next : g'.code.nextHandle = g.code.nextHandle
  shape : g'.code.shape? = g.code.shape?
  old : ∀ h ∈ b.code.live, g'.code.instruction? h = b.code.instruction? h
  pending : g'.pending = (g.pending.filter fun l => l.source?.isNone) ++ g.reopened (emptied new)
  entries : g'.entries = g.entries.filterMap fun _ d => if d ∈ new then none else some d
  waiting : ∀ m h, h ∈ g'.waitingOf m ↔ h ∈ b.code.live ∧
    (h ∈ g.waitingOf m ∨ ∃ i d, g.code.instruction? h = some i ∧ i.opcode.role = .call ∧ i.target = .code d ∧
      ((emptied new).orphans g).get? d = some m)

section Clear

variable {b : Generator} {f? : Option String} {log : List (Handle × String)} {X : Handle → Prop}
  {new : List Handle} {g g1 : Generator} {h : Handle}

lemma Sound.contains_emptied_old (hs : Sound b f? log X new g) (hm : h ∈ b.code.live) :
    (emptied new).removed.contains h = false := by
  rw [← Bool.not_eq_true, contains_emptied]
  exact hs.not_mem_new hm

/-- An old control transfer is as it was, or a call that has found the new method. -/
lemma Sound.target_emptied (hs : Sound b f? log X new g) (hm : h ∈ b.code.live) {i : Instruction}
    (hi : b.code.instruction? h = some i) :
    ∃ j, g.code.instruction? h = some j ∧
      (newTarget (emptied new) ((emptied new).orphans g) h j = i.target ∧
        newLinks (emptied new) ((emptied new).orphans g) h j = []) ∧
      j.opcode = i.opcode ∧ j.operand = i.operand ∧ (i.opcode.role = .plain → j = i) := by
  rcases hs.kept h hm i hi with hj | ⟨hr, hu, d, hd, hj⟩
  · refine ⟨i, hj, ?_, rfl, rfl, fun _ => rfl⟩
    exact new_of_kept fun d hd => hs.contains_emptied_old (hs.closed h hm i hi d hd)
  · refine ⟨_, hj, ?_, rfl, rfl, fun hplain => by rw [hr] at hplain; cases hplain⟩
    have hlive' := hs.mem_live_old hm
    have hdn : d ∈ new := mem_of_mem_head? hd
    obtain ⟨m, hm'⟩ : ∃ m, g.entries.get? m = some d := by
      rcases hs.call h hlive' _ hj hr with ⟨d', ht, hd'⟩ | ⟨hu', -⟩
      · obtain rfl := Target.code.inj ht
        rcases hd' with hd' | ⟨-, hm'⟩
        · exact absurd hdn (hs.not_mem_new hd')
        · exact hm'
      · cases hu'
    obtain ⟨m', ho⟩ := isSome_iff_exists.1 (orphans_emptied_isSome hm' hdn)
    have horphan : orphanOf ((emptied new).orphans g) { i with target := .code d } = some m' := by
      unfold orphanOf
      simp only [isCall_eq_true.2 hr, ho]
    rw [newTarget, newLinks, horphan, hu]
    exact ⟨rfl, rfl⟩

/-- The calls that wait once the new code has gone: the old ones that waited, and those that had found the new
method. -/
lemma Sound.waits_emptied (hs : Sound b f? log X new g) (hlaid : g1.code.Laid) (hlive : g1.code.live = b.code.live)
    (hinst : g1.code.instruction? = g.code.instruction?) (hw : g1.waiting = g.waiting) :
    (h ∈ (g1.cut (emptied new)).waitingOf m ∨
      h ∈ g1.code.linked ∧ (g1.cut (emptied new)).waitsAgain ((emptied new).orphans g) m h = true) ↔
    h ∈ b.code.live ∧ (h ∈ g.waitingOf m ∨ ∃ i d, g.code.instruction? h = some i ∧ i.opcode.role = .call ∧
      i.target = .code d ∧ ((emptied new).orphans g).get? d = some m) := by
  have hcut : (g1.cut (emptied new)).waitingOf m =
      (g.waitingOf m).filter fun h => !(emptied new).removed.contains h := by
    rw [waitingOf, cut, get?_map, hw, waitingOf]
    cases g.waiting.get? m <;> rfl
  rw [hcut, mem_filter]
  constructor
  · rintro (⟨hw, hn⟩ | ⟨hl, ha⟩)
    · have hlive' := (hs.waiting m h hw).1
      rw [hs.live, mem_append] at hlive'
      refine ⟨hlive'.resolve_right fun hm => ?_, .inl hw⟩
      rw [contains_emptied.2 hm] at hn
      cases hn
    · refine ⟨hlive ▸ ((mem_linked hlaid).1 hl).1, .inr ?_⟩
      rw [waitsAgain, beq_iff_eq] at ha
      obtain ⟨i, hi, ho⟩ := bind_eq_some_iff.1 ha
      have hi' : g.code.instruction? h = some i := (congrFun hinst h).symm.trans hi
      unfold orphanOf at ho
      split at ho
      · next hcall ht => exact ⟨i, _, hi', isCall_eq_true.1 hcall, ht, ho⟩
      · cases ho
  · rintro ⟨hm, hw | ⟨i, d, hi, hr, ht, ho⟩⟩
    · exact .inl ⟨hw, by rw [hs.contains_emptied_old hm]; rfl⟩
    · have hi' : g1.code.instruction? h = some i := (congrFun hinst h).trans hi
      refine .inr ⟨(mem_linked hlaid).2 ⟨hlive ▸ hm, i, hi', by simp [hr]⟩, ?_⟩
      have hi'' : (g1.cut (emptied new)).code.instruction? h = some i := hi'
      rw [waitsAgain, hi'', bind_some, beq_iff_eq]
      unfold orphanOf
      simp only [isCall_eq_true.2 hr, ht, ho]

lemma Sound.clear (hs : Sound b f? log X new g) (hlaid : g1.code.Laid)
    (hlive : g1.code.live = b.code.live) (harena : g1.code.arena = g.code.arena) (hp : g1.pending = g.pending)
    (he : g1.entries = g.entries) (hw : g1.waiting = g.waiting) (hctx : g1.context = g.context) :
    Cleared b new g (g1.relink (emptied new)) := by
  have hinst : g1.code.instruction? = g.code.instruction? := by
    funext x
    rw [instruction?, instruction?, harena]
  have horphans : (emptied new).orphans g1 = (emptied new).orphans g := by
    simp only [Gap.orphans, Gap.newEntry, he]
  have hrel := @relink_relinked g1 (emptied new) hlaid
  rw [horphans] at hrel
  have hlinked : ∀ h ∈ g1.code.linked, h ∈ b.code.live := fun h hm => hlive ▸ ((mem_linked hlaid).1 hm).1
  refine {
    context := hrel.context.trans hctx
    laid := hrel.laid hlaid
    live := hrel.live.trans hlive
    next := by rw [hrel.next]; exact congrArg Array.size harena
    shape := by rw [hrel.shape]; exact funext fun x => congrArg _ (congrFun hinst x)
    old := fun h hm => ?old
    pending := ?pending
    entries := ?entries
    waiting := fun m h => ?waiting }
  case old =>
    obtain ⟨i, hi⟩ := hs.base.instruction?_isSome hm
    obtain ⟨j, hj, ⟨ht, -⟩, ho, hb, hplain⟩ := hs.target_emptied hm hi
    by_cases hl : h ∈ g1.code.linked
    · rw [hrel.mem h hl j ((congrFun hinst h).trans hj), ht, ho, hb, hi]
    · refine (hrel.other h hl).trans ((congrFun hinst h).trans ?_)
      rw [hj, hi, hplain]
      by_contra hr
      exact hl ((mem_linked hlaid).2 ⟨hlive ▸ hm, j, (congrFun hinst h).trans hj, by rw [ho]; exact hr⟩)
  case pending =>
    have hnone : g1.code.linked.flatMap ((g1.cut (emptied new)).linksFrom (emptied new) ((emptied new).orphans g)) =
        [] := flatMap_eq_nil_iff.2 fun h hl => by
      obtain ⟨i, hi⟩ := hs.base.instruction?_isSome (hlinked h hl)
      obtain ⟨j, hj, ⟨-, hn⟩, -⟩ := hs.target_emptied (hlinked h hl) hi
      have hj' : (g1.cut (emptied new)).code.instruction? h = some j := (congrFun hinst h).trans hj
      rw [linksFrom, hj', map_some, getD_some, hn]
    have hframe : g1.reopened (emptied new) = g.reopened (emptied new) := by
      rw [reopened, reopened, frame_of_context hctx, horphans]
    rw [hrel.pending, hnone, append_nil]
    change (g1.pending.filter _) ++ g1.reopened (emptied new) = _
    rw [hp, hframe]
    congr 1
    refine filter_congr fun l hl => ?_
    cases hsrc : l.source? with
    | none => rfl
    | some s =>
      have := contains_emptied.2 (hs.source_mem hl hsrc)
      simp [this]
  case entries =>
    rw [hrel.entries]
    change (g1.entries.filterMap fun _ d =>
      if (emptied new).removed.contains d then (emptied new).newEntry g1 else some d) = _
    rw [he]
    congr 1
    funext m d
    by_cases hd : d ∈ new
    · rw [if_pos (contains_emptied.2 hd), if_pos hd]
      rfl
    · rw [if_neg fun h => hd (contains_emptied.1 h), if_neg hd]
  case waiting =>
    rw [hrel.waitingOf m, mem_append, mem_filter]
    exact hs.waits_emptied hlaid hlive hinst hw

end Clear

/-- Only the method under way starts in new code. -/
lemma Named.eq_of_entry {b : Generator} {f? : Option String} {log : List (Handle × String)} {X : Handle → Prop}
    {new : List Handle} {g : Generator} {f : String} (hn : Named b f log X new g)
    (hs : Sound b f? log X new g) (he : g.entries.get? m = some d) (hd : d ∈ new) : m = f := by
  by_contra hne
  have hm : (m, d) ∈ g.entries.entries.filter fun e => e.1 ≠ f :=
    mem_filter.2 ⟨get?_eq_some_iff.1 he, by simpa using hne⟩
  rw [hn.others] at hm
  exact hs.not_mem_new (hs.starts m d (get?_eq_some_iff.2 (mem_filter.1 hm).1)) hd

/-- No old call leads to itself. -/
lemma Named.onward_old {b : Generator} {f? : Option String} {log : List (Handle × String)} {X : Handle → Prop}
    {new : List Handle} {g : Generator} {f : String} {h : Handle} {i : Instruction} (hn : Named b f log X new g)
    (hs : Sound b f? log X new g) (hm : (h, m) ∈ log) (hold : h ∈ b.code.live)
    (hi : b.code.instruction? h = some i) : i.target ≠ .code h := by
  rcases hs.kept h hold i hi with hj | ⟨-, hu, -⟩
  · exact hn.onward h m i hm (hs.mem_live_old hold) hj
  · rw [hu]
    exact Target.noConfusion

namespace Cleared

variable {b : Generator} {f? : Option String} {log : List (Handle × String)} {X : Handle → Prop}
  {new : List Handle} {g g' : Generator}

variable (hc : Cleared b new g g') {m : String} {d h : Handle}
include hc

lemma entries_eq_some : g'.entries.get? m = some d ↔ g.entries.get? m = some d ∧ d ∉ new := by
  rw [hc.entries, get?_filterMap]
  constructor
  · intro h
    obtain ⟨d', hd', h⟩ := bind_eq_some_iff.1 h
    split at h
    · cases h
    · next hn =>
      obtain rfl := some.inj h
      exact ⟨hd', hn⟩
  · rintro ⟨he, hn⟩
    rw [he, bind_some, if_neg hn]

section

variable (hs : Sound b f? log X new g) {m : String} {h : Handle}
include hs

/-- A call that waits is an old call without target, and it waits for one method. -/
lemma waiting_call (hw : h ∈ g'.waitingOf m) :
    h ∈ b.code.live ∧ ∃ i, b.code.instruction? h = some i ∧ i.opcode.role = .call ∧ i.target = .unresolved := by
  obtain ⟨hm, hcase⟩ := (hc.waiting m h).1 hw
  refine ⟨hm, ?_⟩
  obtain ⟨i, hi⟩ := hs.base.instruction?_isSome hm
  refine ⟨i, hi, ?_⟩
  rcases hcase with hw | ⟨j, d, hj, hr, ht, ho⟩
  · obtain ⟨-, j, hj, hr, hu⟩ := hs.waiting m h hw
    rcases hs.kept h hm i hi with hj' | ⟨hr', hu', -⟩
    · rw [hj, some.injEq] at hj'
      subst hj'
      exact ⟨hr, hu⟩
    · exact ⟨hr', hu'⟩
  · rcases hs.kept h hm i hi with hj' | ⟨hr', hu', -⟩
    · rw [hj, some.injEq] at hj'
      subst hj'
      have hd := hs.closed h hm j hi d (by rw [refs_eq (by simp [hr]), ht]; exact mem_cons_self)
      exact absurd (orphans_emptied_eq_some ho).2 (hs.not_mem_new hd)
    · exact ⟨hr', hu'⟩

lemma waiting_once {m' : String} (hw : h ∈ g'.waitingOf m) (hw' : h ∈ g'.waitingOf m') : m = m' := by
  have hclash : ∀ m, h ∈ g.waitingOf m → ∀ i d, g.code.instruction? h = some i → i.target ≠ .code d :=
    fun m hm i d hi ht => by
      obtain ⟨-, j, hj, -, hu⟩ := hs.waiting m h hm
      rw [hi, some.injEq] at hj
      subst hj
      rw [ht] at hu
      cases hu
  rcases ((hc.waiting m h).1 hw).2 with hw | ⟨i, d, hi, -, ht, ho⟩
  · rcases ((hc.waiting m' h).1 hw').2 with hw' | ⟨i, d, hi, -, ht, -⟩
    · exact hs.once m m' h hw hw'
    · exact absurd ht (hclash m hw i d hi)
  · rcases ((hc.waiting m' h).1 hw').2 with hw' | ⟨i', d', hi', -, ht', ho'⟩
    · exact absurd ht (hclash m' hw' i d hi)
    · rw [hi, some.injEq] at hi'
      subst hi'
      obtain rfl := Target.code.inj (ht.symm.trans ht')
      exact some.inj (ho.symm.trans ho')

/-- Every old call without target waits. -/
lemma unresolved_waits {i : Instruction}
    (hm : h ∈ b.code.live) (hi : b.code.instruction? h = some i) (hr : i.opcode.role = .call)
    (hu : i.target = .unresolved) : ∃ m, h ∈ g'.waitingOf m := by
  have hlive := hs.mem_live_old hm
  rcases hs.kept h hm i hi with hj | ⟨-, -, d, hd, hj⟩
  · rcases hs.call h hlive i hj hr with ⟨d, ht, -⟩ | ⟨-, ⟨m, hw⟩ | ⟨hn, -⟩⟩
    · rw [hu] at ht
      cases ht
    · exact ⟨m, (hc.waiting m h).2 ⟨hm, .inl hw⟩⟩
    · exact absurd hn (hs.not_mem_new hm)
  · rcases hs.call h hlive _ hj hr with ⟨d', ht, hd'⟩ | ⟨hu', -⟩
    · obtain rfl := Target.code.inj ht
      rcases hd' with hd' | ⟨-, m, he⟩
      · exact absurd (mem_of_mem_head? hd) (hs.not_mem_new hd')
      · obtain ⟨m', ho⟩ := isSome_iff_exists.1 (orphans_emptied_isSome he (mem_of_mem_head? hd))
        exact ⟨m', (hc.waiting m' h).2 ⟨hm, .inr ⟨_, d, hj, hr, rfl, ho⟩⟩⟩
    · cases hu'

/-- The calls that wait are the old calls without target, each for the method it was emitted for. -/
lemma waits_iff {f : String} (hn : Named b f log X new g) : h ∈ g'.waitingOf m ↔ h ∈ b.code.live ∧ (h, m) ∈ log ∧
      ∃ i, b.code.instruction? h = some i ∧ i.target = .unresolved := by
  constructor
  · intro hw
    obtain ⟨hm, i, hi, -, hu⟩ := hc.waiting_call hs hw
    refine ⟨hm, ?_, i, hi, hu⟩
    rcases ((hc.waiting m h).1 hw).2 with hw | ⟨j, d, hj, hr, ht, ho⟩
    · exact hn.waiting m h hw
    · have hlive := hs.mem_live_old hm
      obtain ⟨he, hd⟩ := orphans_emptied_eq_some ho
      obtain ⟨m', hm'⟩ := hn.logged h hlive ((role?_eq hj).trans (by rw [hr]))
      rcases hn.leads h m' j d hm' hlive hj ht with hd' | he'
      · exact absurd hd (hs.not_mem_new hd'.1)
      · rwa [hn.eq_of_entry hs he hd, ← hn.eq_of_entry hs he' hd]
  · rintro ⟨hm, hlog, i, hi, hu⟩
    have hlive := hs.mem_live_old hm
    refine (hc.waiting m h).2 ⟨hm, ?_⟩
    rcases hs.kept h hm i hi with hj | ⟨hr, -, d, hd, hj⟩
    · exact .inl ((hn.waits h m i hlog hlive hj hu).resolve_right fun hx => hs.not_mem_new hm hx.1)
    · have hdn := mem_of_mem_head? hd
      rcases hn.leads h m _ d hlog hlive hj rfl with hd' | he
      · exact absurd hdn (hs.not_mem_new hd'.1)
      · obtain ⟨m', ho⟩ := isSome_iff_exists.1 (orphans_emptied_isSome he hdn)
        have hsame : m' = m := by
          rw [hn.eq_of_entry hs he hdn, hn.eq_of_entry hs (orphans_emptied_eq_some ho).1 hdn]
        exact .inr ⟨_, d, hj, hr, rfl, hsame ▸ ho⟩

end

/-- No call waits for a method that starts elsewhere. -/
lemma stuck {f : String} (hn : Named b f log X new g)
    (hw : h ∈ g'.waitingOf m) (he : g'.entries.get? m = some d) : d = h := by
  obtain ⟨he, hd⟩ := hc.entries_eq_some.1 he
  rcases ((hc.waiting m h).1 hw).2 with hw | ⟨i, d', hi, -, -, ho⟩
  · exact hn.stuck m d h hw he
  · obtain ⟨he', hd'⟩ := orphans_emptied_eq_some ho
    obtain rfl := some.inj (he.symm.trans he')
    exact absurd hd' hd

lemma entry_mem (hs : Sound b f? log X new g) (he : g'.entries.get? m = some d) : d ∈ b.code.live := by
  obtain ⟨he, hn⟩ := hc.entries_eq_some.1 he
  exact (hs.entries m d he).resolve_right fun hh => hn (mem_of_mem_head? hh)

/-- Only entries are pending, each of which was pending before or is that of the open method. -/
lemma pending_entry {l : Link} (hl : l ∈ g'.pending) :
    ∃ m, l = .entry m ∧ (.entry m ∈ g.pending ∨ ∃ fr, g.frame = some fr ∧ fr.name = m) := by
  rw [hc.pending, mem_append, mem_filter] at hl
  rcases hl with ⟨hl, hsrc⟩ | hl
  · cases l with
    | entry m => exact ⟨m, rfl, .inl hl⟩
    | _ => cases hsrc
  · unfold reopened at hl
    split at hl
    · next fr hfr =>
      split at hl
      · exact ⟨_, mem_singleton.1 hl, .inr ⟨fr, hfr, rfl⟩⟩
      · cases hl
    · cases hl

/-- Every old call leads to old code, or waits. -/
lemma call (hs : Sound b f? log X new g) {i : Instruction}
    (hm : h ∈ b.code.live) (hi : b.code.instruction? h = some i) (hr : i.opcode.role = .call) :
    (∃ d ∈ b.code.live, i.target = .code d) ∨ i.target = .unresolved ∧ ∃ m, h ∈ g'.waitingOf m := by
  have hlive := hs.mem_live_old hm
  have hwaits := hc.unresolved_waits hs hm hi hr
  rcases hs.kept h hm i hi with hj | ⟨-, hu, -⟩
  · rcases hs.call h hlive i hj hr with ⟨d, ht, -⟩ | ⟨hu, -⟩
    · refine .inl ⟨d, hs.closed h hm i hi d ?_, ht⟩
      rw [refs_eq (by simp [hr]), ht]
      exact mem_cons_self
    · exact .inr ⟨hu, hwaits hu⟩
  · exact .inr ⟨hu, hwaits hu⟩

end Cleared

/-! ### The only new instruction -/

namespace Sound

variable {b : Generator} {f? : Option String} {log : List (Handle × String)} {X : Handle → Prop} {g : Generator}
  {r : Handle}

lemma cleared_of_only (hs : Sound b f? log X [r] g) : Cleared b [r] g (g.removeInstruction r) := by
  obtain ⟨e, heq⟩ := removeInstruction_eq hs.laid hs.live
  rw [append_nil] at heq
  rw [heq]
  refine hs.clear (laid_layOut hs.base.nodup fun h hm => ?_) rfl rfl rfl rfl rfl rfl
  exact hs.laid.bound h (hs.mem_live_old hm)

lemma named_excise_only {f : String} (hs : Sound b f? log X [r] g) (hn : Named b f log X [r] g)
    (hf : g.frame.isSome) : Named b f log X [] (g.removeInstruction r) := by
  have hcl := hs.cleared_of_only
  have hentry : g.entries.get? f = some r := by
    rcases hn.opened with ⟨h, -⟩ | ⟨-, h⟩
    · cases h
    · exact h
  obtain ⟨fr, hfr⟩ := isSome_iff_exists.1 hf
  have hname : fr.name = f := hn.frame fr hfr
  have hlive : ∀ h ∈ (g.removeInstruction r).code.live, h ∈ b.code.live := fun h hm => by
    rwa [hcl.live] at hm
  have hrole : (g.removeInstruction r).code.role? = g.code.role? :=
    role?_of_shape? hcl.shape
  have hreopened : g.reopened (emptied [r]) = [.entry f] := by
    obtain ⟨m, ho⟩ := isSome_iff_exists.1 (orphans_emptied_isSome hentry mem_cons_self)
    obtain rfl := hn.eq_of_entry hs (orphans_emptied_eq_some ho).1 mem_cons_self
    have hany : ((emptied [r]).orphans g).entries.any (fun e => e.2 == fr.name) = true :=
      any_eq_true.2 ⟨(r, m), get?_eq_some_iff.1 ho, by simp [hname]⟩
    rw [reopened, hfr]
    simp only [hany]
    rw [hname]
    rfl
  have hpend : ∀ m, .entry m ∈ (g.removeInstruction r).pending → m = f := fun m hm => by
    obtain ⟨m', heq, hm' | ⟨fr', hfr', rfl⟩⟩ := hcl.pending_entry hm
    · obtain rfl := Link.entry.inj heq
      exact hn.entry m hm'
    · obtain rfl := Link.entry.inj heq
      exact hn.frame fr' hfr'
  refine {
    frame := fun fr' h => hn.frame fr' (by rw [frame_of_context hcl.context] at h; exact h)
    entry := hpend
    others := ?others
    opened := .inl ⟨rfl, by rw [hcl.pending, hreopened]; simp⟩
    logged := fun h hm hr => hn.logged h ?live (by rw [← hrole]; exact hr)
    calls := fun h m hm => by rw [hrole]; exact hn.calls h m hm
    unique := hn.unique
    waits := fun h m i hm hl hi hu =>
      .inl ((hcl.waits_iff hs hn).2 ⟨hlive h hl, hm, i, (hcl.old h (hlive h hl)).symm.trans hi, hu⟩)
    leads := fun h m i d hm hl hi ht => .inl ⟨?leads, .inl (hlive h hl)⟩
    former := fun d hd he => hn.former d hd (hcl.entries_eq_some.1 he).1
    waiting := fun m h hw => ((hcl.waits_iff hs hn).1 hw).2.1
    stuck := fun m d h hw he => hcl.stuck hn hw he
    onward := fun h m i hm hl hi => hn.onward_old hs hm (hlive h hl) ((hcl.old h (hlive h hl)).symm.trans hi) }
  case others =>
    rw [hcl.entries, ← hn.others]
    refine filter_filterMap fun e he hne => if_neg fun hd => hne ?_
    exact hn.eq_of_entry hs (get?_eq_some_iff.2 he) hd
  case live => exact hs.mem_live_old (hlive h hm)
  case leads =>
    have hi' := (hcl.old h (hlive h hl)).symm.trans hi
    refine hs.closed h (hlive h hl) i hi' d ?_
    have hr := hn.calls h m hm
    rw [← hrole, role?_eq hi, some.injEq] at hr
    rw [refs_eq (by simp [hr]), ht]
    exact mem_cons_self

/-- **Removing the only new instruction opens the method anew.** -/
lemma excise_only (hs : Sound b f? log X [r] g) (hc : g.code.constant? r = some true)
    (hf : g.frame.isSome) : Sound b f? log X [] (g.removeInstruction r) := by
  have hcl := hs.cleared_of_only
  have hrole : g.code.role? r = some .plain := role?_of_constant hc
  have hplain : ∀ x ∈ [r], g.code.role? x ≠ some .leap ∧ g.code.role? x ≠ some .protect := fun x hx => by
    rw [mem_singleton.1 hx, hrole]
    simp
  have hctx := hcl.context
  have hheld := held_of_context hctx
  refine {
    base := hs.base
    laid := hcl.laid
    live := by rw [hcl.live, append_nil]
    closed := hs.closed
    starts := hs.starts
    ends := hs.ends
    fresh := nofun
    grown := by rw [hcl.next]; exact hs.grown
    head := nofun
    kept := fun h hm i hi => .inl ((hcl.old h hm).trans hi)
    plain := nofun
    narrow := nofun
    leap := nofun
    protect := nofun
    call := fun h hm i hi hr => ?call
    entries := fun m d he => .inl (hcl.entry_mem hs he)
    waiting := fun m h hw => ?waiting
    once := fun m m' h hw hw' => hcl.waiting_once hs hw hw'
    links := fun l hl => by obtain ⟨m, rfl, -⟩ := hcl.pending_entry hl; rfl
    jumps := fun h hm => ?jumps
    loops := fun l hl => ?loops
    tries := fun t ht => ?tries
    named := fun f hf' => ?named }
  case call =>
    rw [hcl.live] at hm
    rw [hcl.old h hm] at hi
    exact (hcl.call hs hm hi hr).imp (fun ⟨d, hd, ht⟩ => ⟨d, ht, .inl hd⟩) fun hu => ⟨hu.1, .inl hu.2⟩
  case waiting =>
    obtain ⟨hm, i, hi, hr, hu⟩ := hcl.waiting_call hs hw
    exact ⟨by rw [hcl.live]; exact hm, i, (hcl.old h hm).trans hi, hr, hu⟩
  case jumps =>
    rw [hheld] at hm
    obtain ⟨hm, hr⟩ := hs.jumps h hm
    exact absurd hr (hplain h hm).1
  case loops =>
    rw [loops_of_context hctx] at hl
    obtain ⟨hm, hr⟩ := (hs.loops l hl).start
    exact absurd hr (hplain _ hm).1
  case tries =>
    rw [tries_of_context hctx] at ht
    obtain ⟨hm, hr⟩ := hs.tries t ht
    exact absurd hr (hplain _ hm).2
  case named => exact hs.named_excise_only (hs.named f hf') hf

end Sound

end NeoScript.Generator
