import NeoScript.Proofs.Generator.Obligations

/-!
# Taking back the code behind a state

Code that is emitted behind a state gives a destination to every link that was pending there. If the code is taken
back, all references to it are lost, and for each of them a link is pending again. Since each link had been owed once
and its destination was not there before, the links and the old code are then as they were.
-/

namespace NeoScript.Generator

open List Option CodeMap Instruction Link

variable {c b g : Generator} {f? : Option String} {log log' : List (Handle × String)} {X Y : Handle → Prop}
  {old old' new : List Handle} {d h : Handle} {i : Instruction}

/-- Live code refers to live code. -/
lemma Sound.refs_live (hs : Sound c f? log X old b) (hm : h ∈ b.code.live) (hi : b.code.instruction? h = some i)
    (hd : d ∈ i.refs) : d ∈ b.code.live := by
  rw [hs.live, mem_append] at hm ⊢
  rcases hm with hm | hm
  · obtain ⟨j, hj⟩ := hs.base.instruction?_isSome hm
    rcases hs.kept h hm j hj with hsame | ⟨hr, -, e, he, hcall⟩
    · obtain rfl := some.inj (hi.symm.trans hsame)
      exact .inl (hs.closed h hm i hj d hd)
    · obtain rfl := some.inj (hi.symm.trans hcall)
      rw [refs_eq (by simp [hr])] at hd
      obtain rfl := mem_singleton.1 hd
      exact .inr (mem_of_mem_head? he)
  · cases hr : i.opcode.role with
    | plain => exact absurd hr (role_of_mem_refs hd)
    | leap =>
      rw [refs_eq (by simp [hr])] at hd
      rcases hs.leap h hm i hi hr with ⟨e, he, -, ht⟩ | ⟨ht, -⟩
      · rw [ht] at hd
        obtain rfl := mem_singleton.1 hd
        exact .inr he
      · rw [ht] at hd
        cases hd
    | protect =>
      rw [refs_eq (by simp [hr])] at hd
      obtain ⟨e, f, ht, hmem⟩ := hs.protect h hm i hi hr
      rw [ht] at hd
      exact .inr (hmem d hd).1
    | call =>
      rw [refs_eq (by simp [hr])] at hd
      have hlive : h ∈ b.code.live := by rw [hs.live]; exact mem_append_right _ hm
      rcases hs.call h hlive i hi hr with ⟨e, ht, he⟩ | ⟨ht, -⟩
      · rw [ht] at hd
        obtain rfl := mem_singleton.1 hd
        exact he.imp id fun he => mem_of_mem_head? he.1
      · rw [ht] at hd
        cases hd

/-! ### One control transfer -/

lemma retarget_of_not_mem {t : Target} {s? : Option Handle} (hd : d ∉ t.handles) : t.retarget d s? = t := by
  cases t with
  | code e =>
    have hne : e ≠ d := by
      rintro rfl
      exact hd mem_cons_self
    simp [Target.retarget, hne]
  | handlers e f =>
    have he : e ≠ some d := by
      rintro rfl
      simp [Target.handles] at hd
    have hf : f ≠ some d := by
      rintro rfl
      simp [Target.handles] at hd
    simp [Target.retarget, Target.swap, he, hf]
  | _ => rfl

/-- Only a call waits. -/
lemma orphanOf_eq_none {orphans : Table Handle String} (hc : i.opcode.role ≠ .call) : orphanOf orphans i = none := by
  unfold orphanOf
  split
  · next hcall _ => exact absurd (Opcode.isCall_eq_true.1 hcall) hc
  · rfl

/-- What becomes of a control transfer, not a call, that refers to no other removed instruction than `d`. -/
lemma new_of_only (h : Handle) (orphans : Table Handle String) (hr : i.opcode.role ≠ .plain) (hc : i.opcode.role ≠ .call)
    (hd : d ∈ new) (hrefs : ∀ x ∈ i.target.handles, x ∈ new → x = d) :
    newTarget (emptied new) orphans h i = i.target.retarget d none ∧
      newLinks (emptied new) orphans h i = lostLinks d h i.target := by
  have hstale : staleRefs (emptied new) i = i.target.handles.filter fun s => s == d := by
    rw [staleRefs, refs_eq hr]
    refine filter_congr fun x hx => ?_
    rw [Bool.eq_iff_iff, contains_emptied, beq_iff_eq]
    constructor
    · exact hrefs x hx
    · rintro rfl
      exact hd
  rw [newTarget, newLinks, orphanOf_eq_none hc]
  dsimp only
  refine ⟨?_, moveRefs_links hstale⟩
  have hall : ∀ s ∈ staleRefs (emptied new) i, s = d := by
    intro s hs
    rw [hstale] at hs
    exact beq_iff_eq.1 (mem_filter.1 hs).2
  change (moveRefs none h (staleRefs (emptied new) i) i.target).1 = _
  rw [moveRefs_eq hall (by simp)]
  split
  · next hnil =>
    refine (retarget_of_not_mem fun hmem => ?_).symm
    rw [hstale, filter_eq_nil_iff] at hnil
    exact hnil d hmem (by simp)
  · rfl

/-- The links with one source. -/
lemma LinksTyped.of_source {links : List Link} (ht : g.LinksTyped links) (hi : g.code.instruction? h = some i)
    {l : Link} (hl : l ∈ links) (hsrc : l.source? = some h) :
    l = .jump h ∧ i.opcode.role = .leap ∨ (l = .handler h ∨ l = .finalizer h) ∧ i.opcode.role = .protect := by
  have hrole : i.opcode.role = l.role := role_of_role? hi (ht.role l hl h hsrc)
  cases l with
  | entry m => cases hsrc
  | jump s => exact .inl ⟨congrArg jump (some.inj hsrc), hrole⟩
  | handler s => exact .inr ⟨.inl (congrArg handler (some.inj hsrc)), hrole⟩
  | finalizer s => exact .inr ⟨.inr (congrArg finalizer (some.inj hsrc)), hrole⟩

/-- What taking back the code `new` behind `b` makes of the instruction `h`, which was `i` and is `j` by then: it gets
the target that it had in `b`, the links of `b` with this source are pending again, and a call waits again. -/
structure Mended (b : Generator) (new : List Handle) (g : Generator) (h : Handle) (i j : Instruction) : Prop where
  opcode : j.opcode = i.opcode
  operand : j.operand = i.operand
  target : newTarget (emptied new) ((emptied new).orphans g) h j = i.target
  links : ∀ l, l ∈ newLinks (emptied new) ((emptied new).orphans g) h j ↔ l ∈ b.pending ∧ l.source? = some h
  nodup : (newLinks (emptied new) ((emptied new).orphans g) h j).Nodup
  waits : ∀ m, orphanOf ((emptied new).orphans g) j = some m ↔ .entry m ∈ b.pending ∧ h ∈ b.waitingOf m

section Mended

variable (ha : Ahead b (d :: new) g) (hb : Sound c f? log Y old' b) (hm : h ∈ b.code.live)
  (hi : b.code.instruction? h = some i)

include ha hb hm hi

/-- An instruction that nothing was pending for. -/
lemma Ahead.mended_same (hsrc : ∀ l ∈ b.pending, l.source? ≠ some h)
    (hw : ∀ m, .entry m ∈ b.pending → h ∉ b.waitingOf m) : Mended b (d :: new) g h i i := by
  have hrefs : ∀ x ∈ i.refs, (emptied (d :: new)).removed.contains x = false := by
    intro x hx
    rw [← Bool.not_eq_true, contains_emptied]
    exact ha.not_mem_new hb.laid (hb.refs_live hm hi hx)
  obtain ⟨ht, hl⟩ := new_of_kept (g := g) (h := h) hrefs
  refine ⟨rfl, rfl, ht, fun l => ?_, by simp [hl], fun m => ?_⟩
  · rw [hl]
    exact iff_of_false not_mem_nil fun h => hsrc l h.1 h.2
  · rw [orphanOf_of_kept hrefs]
    exact iff_of_false nofun fun h => hw m h.1 h.2

/-- A control transfer, not a call: what is lost is what was pending. -/
lemma Ahead.mended_links {t : Target} (hr : i.opcode.role ≠ .plain) (hc : i.opcode.role ≠ .call)
    (hrefs : ∀ x ∈ t.handles, x = d ∨ x ∈ i.refs) (ht : t.retarget d none = i.target)
    (hl : ∀ l, l ∈ lostLinks d h t ↔ l ∈ b.pending ∧ l.source? = some h) :
    Mended b (d :: new) g h i { i with target := t } := by
  have honly : ∀ x ∈ t.handles, x ∈ d :: new → x = d := by
    intro x hx hnew
    rcases hrefs x hx with rfl | hx
    · rfl
    · exact absurd hnew (ha.not_mem_new hb.laid (hb.refs_live hm hi hx))
  obtain ⟨hnt, hnl⟩ := new_of_only h ((emptied (d :: new)).orphans g) (i := { i with target := t }) hr hc
    mem_cons_self honly
  refine ⟨rfl, rfl, hnt.trans ht, fun l => ?_, by rw [hnl]; exact nodup_lostLinks _ _ _, fun m => ?_⟩
  · rw [hnl]
    exact hl l
  · rw [orphanOf_eq_none (i := { i with target := t }) hc]
    refine iff_of_false nofun fun hw => hc ?_
    exact role_of_role? hi (hb.linksTyped.waiting m h hw.2)

lemma Ahead.mended_leap (hr : i.opcode.role = .leap) (hopen : i.target = .unresolved) (hp : .jump h ∈ b.pending) :
    Mended b (d :: new) g h i { i with target := .code d } := by
  refine ha.mended_links hb hm hi (by simp [hr]) (by simp [hr]) (fun x hx => .inl (mem_singleton.1 hx)) ?_ ?_
  · rw [hopen]
    simp [Target.retarget]
  · intro l
    rw [lostLinks, if_pos rfl, mem_singleton]
    constructor
    · rintro rfl
      exact ⟨hp, rfl⟩
    · rintro ⟨hl, hsrc⟩
      rcases hb.linksTyped.of_source hi hl hsrc with ⟨rfl, -⟩ | ⟨-, hr'⟩
      · rfl
      · rw [hr] at hr'
        cases hr'

lemma Ahead.mended_protect {e f : Option Handle} (hr : i.opcode.role = .protect) (ht : i.target = .handlers e f)
    (he : .handler h ∈ b.pending → e = none) (hf : .finalizer h ∈ b.pending → f = none) :
    Mended b (d :: new) g h i ⟨i.opcode, i.operand,
      .handlers (if .handler h ∈ b.pending then some d else e) (if .finalizer h ∈ b.pending then some d else f)⟩ := by
  have hrefs : i.refs = e.toList ++ f.toList := by rw [refs_eq (by simp [hr]), ht]; rfl
  have hd : ∀ x ∈ i.refs, x ≠ d := by
    rintro x hx rfl
    exact ha.not_mem_new hb.laid (hb.refs_live hm hi hx) mem_cons_self
  have hed : e ≠ some d := by
    rintro rfl
    exact hd d (by simp [hrefs]) rfl
  have hfd : f ≠ some d := by
    rintro rfl
    exact hd d (by simp [hrefs]) rfl
  refine ha.mended_links hb hm hi (by simp [hr]) (by simp [hr]) (fun x hx => ?_) ?_ fun l => ?_
  · rw [hrefs]
    simp only [Target.handles, mem_append, mem_toList] at hx ⊢
    rcases hx with hx | hx
    · split at hx
      · exact .inl (some.inj hx).symm
      · exact .inr (.inl hx)
    · split at hx
      · exact .inl (some.inj hx).symm
      · exact .inr (.inr hx)
  · rw [ht, Target.retarget]
    congr 1
    · by_cases hp : .handler h ∈ b.pending
      · simp [Target.swap, hp, he hp]
      · simp [Target.swap, hp, hed]
    · by_cases hp : .finalizer h ∈ b.pending
      · simp [Target.swap, hp, hf hp]
      · simp [Target.swap, hp, hfd]
  · have hmem : l ∈ lostLinks d h (.handlers (if .handler h ∈ b.pending then some d else e)
        (if .finalizer h ∈ b.pending then some d else f)) ↔
        .handler h ∈ b.pending ∧ l = .handler h ∨ .finalizer h ∈ b.pending ∧ l = .finalizer h := by
      by_cases hp : .handler h ∈ b.pending <;> by_cases hq : .finalizer h ∈ b.pending <;>
        simp [lostLinks, hp, hq, hed, hfd]
    rw [hmem]
    constructor
    · rintro (⟨hp, rfl⟩ | ⟨hp, rfl⟩)
      · exact ⟨hp, rfl⟩
      · exact ⟨hp, rfl⟩
    · rintro ⟨hl, hsrc⟩
      rcases hb.linksTyped.of_source hi hl hsrc with ⟨-, hr'⟩ | ⟨rfl | rfl, -⟩
      · rw [hr] at hr'
        cases hr'
      · exact .inl ⟨hl, rfl⟩
      · exact .inr ⟨hl, rfl⟩

omit hm in
lemma Ahead.mended_call {m : String} (ho : b.Owned) (hr : i.opcode.role = .call) (he : .entry m ∈ b.pending)
    (hw : h ∈ b.waitingOf m) : Mended b (d :: new) g h i { i with target := .code d } := by
  have horphan : orphanOf ((emptied (d :: new)).orphans g) { i with target := .code d } = some m := by
    unfold orphanOf
    simp only [Opcode.isCall_eq_true.2 hr]
    exact (ha.orphan_iff ho hb).2 ⟨rfl, he⟩
  refine ⟨rfl, rfl, ?_, fun l => ?_, by simp [newLinks, horphan], fun m' => ?_⟩
  · rw [newTarget, horphan]
    obtain ⟨-, j, hj, -, hu⟩ := hb.waiting m h hw
    rw [some.inj (hi.symm.trans hj), hu]
  · rw [newLinks, horphan]
    refine iff_of_false not_mem_nil fun hl => ?_
    rcases hb.linksTyped.of_source hi hl.1 hl.2 with ⟨-, hr'⟩ | ⟨-, hr'⟩ <;> rw [hr] at hr' <;> cases hr'
  · rw [horphan, some.injEq]
    constructor
    · rintro rfl
      exact ⟨he, hw⟩
    · exact fun h' => hb.once m m' h hw h'.2

/-- **Every instruction is mended** when the code behind `b` is taken back. -/
lemma Ahead.mended (ho : b.Owned) (hu : Owing [] b) :
    ∃ j, g.code.instruction? h = some j ∧ Mended b (d :: new) g h i j := by
  have hl := hb.linksTyped
  have ht : ({ b with pending := [] } : Generator).LinksTyped b.pending := ⟨hl.1, hl.2⟩
  have hcode : g.code.instruction? h = _ := ha.code h hm (.inr ho)
  rw [toward_cons, resolveAll_eq] at hcode
  have hunmet : ∀ l ∈ b.pending, l.Unmet b.code := fun l hl =>
    hu.unmet l (mem_append_right _ (mem_append_left _ hl))
  by_cases hsrc : ∃ l ∈ b.pending, l.source? = some h
  · obtain ⟨l, hlp, hlh⟩ := hsrc
    rcases hl.of_source hi hlp hlh with ⟨rfl, hr⟩ | ⟨-, hr⟩
    · rw [instruction?_resolveLinks_leap (g := { b with pending := [] }) ht hi hr, if_pos hlp] at hcode
      exact ⟨_, hcode, ha.mended_leap hb hm hi hr ((hunmet _ hlp h rfl).2 i hi) hlp⟩
    · have hnew : h ∈ old' := hb.source_mem hlp hlh
      obtain ⟨e, f, htarget, -⟩ := hb.protect h hnew i hi hr
      rw [instruction?_resolveLinks_protect (g := { b with pending := [] }) ht hi hr htarget] at hcode
      exact ⟨_, hcode, ha.mended_protect hb hm hi hr htarget (fun hp => (hunmet _ hp h rfl).2 i hi e f htarget)
        fun hp => (hunmet _ hp h rfl).2 i hi e f htarget⟩
  · have hno : ∀ l ∈ b.pending, l.source? ≠ some h := fun l hl hlh => hsrc ⟨l, hl, hlh⟩
    by_cases hw : ∃ m, .entry m ∈ b.pending ∧ h ∈ b.waitingOf m
    · obtain ⟨m, he, hw⟩ := hw
      have hr : i.opcode.role = .call := role_of_role? hi (hl.waiting m h hw)
      rw [instruction?_resolveLinks_called (g := { b with pending := [] }) ht hi he hw] at hcode
      exact ⟨_, hcode, ha.mended_call hb hi ho hr he hw⟩
    · have hnot : ∀ m, .entry m ∈ b.pending → h ∉ b.waitingOf m := fun m he hw' => hw ⟨m, he, hw'⟩
      rw [instruction?_resolveLinks_other (g := { b with pending := [] }) hi hno hnot] at hcode
      exact ⟨i, hcode, ha.mended_same hb hm hi hno hnot⟩

end Mended

/-! ### The whole code -/

/-- The state `r` has the code, the links and the waiting calls of `b`, and the entries but for those pending. -/
structure Undone (b r : Generator) : Prop where
  laid : r.code.Laid
  live : r.code.live = b.code.live
  grown : b.code.nextHandle ≤ r.code.nextHandle
  shape : ∀ h < b.code.nextHandle, r.code.shape? h = b.code.shape? h
  code : ∀ h ∈ b.code.live, r.code.instruction? h = b.code.instruction? h
  pending : ∀ l, l ∈ r.pending ↔ l ∈ b.pending
  once : ∀ l, l.source?.isSome → r.pending.count l ≤ 1
  waits : ∀ m h, h ∈ r.waitingOf m ↔ h ∈ b.waitingOf m
  starts : ∀ m d, r.entries.get? m = some d → d ∈ b.code.live
  entries : ∀ m, .entry m ∉ b.pending → r.entries.get? m = b.entries.get? m

/-- The state `g1` is `g` with the code of `b` only, before anything is relinked. -/
structure Stripped (b g g1 : Generator) : Prop where
  laid : g1.code.Laid
  live : g1.code.live = b.code.live
  arena : g1.code.arena = g.code.arena
  pending : g1.pending = g.pending
  entries : g1.entries = g.entries
  waiting : g1.waiting = g.waiting
  context : g1.context = g.context

section Undone

variable {g1 : Generator}

namespace Stripped

variable (ht : Stripped b g g1)

include ht

lemma instruction? (h : Handle) : g1.code.instruction? h = g.code.instruction? h := by
  rw [CodeMap.instruction?, CodeMap.instruction?, ht.arena]

lemma mem_linked : h ∈ g1.code.linked ↔
    h ∈ b.code.live ∧ ∃ j, g.code.instruction? h = some j ∧ j.opcode.role ≠ .plain := by
  rw [Generator.mem_linked ht.laid, ht.live, ht.instruction?]

lemma orphans (gap : Gap) : gap.orphans g1 = gap.orphans g := by
  simp only [Gap.orphans, Gap.newEntry, ht.entries]

lemma relinked (gap : Gap) : Relinked gap (gap.orphans g) g1.code.linked (g1.cut gap) (g1.relink gap) := by
  rw [← ht.orphans]
  exact relink_relinked ht.laid

lemma linksFrom_cut (gap : Gap) {j : Instruction} (hj : g.code.instruction? h = some j) :
    (g1.cut gap).linksFrom gap (gap.orphans g) h = newLinks gap (gap.orphans g) h j := by
  have hcut : (g1.cut gap).code.instruction? h = some j := (ht.instruction? h).trans hj
  rw [linksFrom, hcut, map_some, getD_some]

lemma waitsAgain_cut (gap : Gap) {j : Instruction} (hj : g.code.instruction? h = some j) (m : String) :
    (g1.cut gap).waitsAgain (gap.orphans g) m h = true ↔ orphanOf (gap.orphans g) j = some m := by
  have hcut : (g1.cut gap).code.instruction? h = some j := (ht.instruction? h).trans hj
  rw [waitsAgain, hcut, bind_some, beq_iff_eq]

lemma waitingOf_cut (gap : Gap) (m : String) :
    (g1.cut gap).waitingOf m = (g.waitingOf m).filter fun h => !gap.removed.contains h := by
  rw [waitingOf, cut, Table.get?_map, ht.waiting, waitingOf]
  cases g.waiting.get? m <;> rfl

/-- A method that starts outside the gap starts there still. -/
lemma entries_relink (new : List Handle) (m : String) (x : Handle) :
    (g1.relink (emptied new)).entries.get? m = some x ↔ g.entries.get? m = some x ∧ x ∉ new := by
  rw [(ht.relinked (emptied new)).entries]
  change (g1.entries.filterMap fun _ h => if (emptied new).removed.contains h then none else some h).get? m = _ ↔ _
  rw [ht.entries, Table.get?_filterMap, bind_eq_some_iff]
  constructor
  · rintro ⟨y, hy, hx⟩
    split at hx
    · cases hx
    · next hn =>
      obtain rfl := some.inj hx
      exact ⟨hy, fun hmem => hn (contains_emptied.2 hmem)⟩
  · rintro ⟨hx, hn⟩
    exact ⟨x, hx, if_neg fun h => hn (contains_emptied.1 h)⟩

/-- The code, the links and the waiting calls are all that is left to look at. -/
lemma undone_of (ha : Ahead b new g) (ho : b.Owned) (hb : Sound c f? log Y old' b) (hs : Sound c f? log' X old g)
    (hcode : ∀ h ∈ b.code.live, (g1.relink (emptied new)).code.instruction? h = b.code.instruction? h)
    (hpending : ∀ l, l ∈ (g1.relink (emptied new)).pending ↔ l ∈ b.pending)
    (honce : ∀ l, l.source?.isSome → (g1.relink (emptied new)).pending.count l ≤ 1)
    (hwaits : ∀ m h, h ∈ (g1.relink (emptied new)).waitingOf m ↔ h ∈ b.waitingOf m) :
    Undone b (g1.relink (emptied new)) := by
  have hrel := ht.relinked (emptied new)
  refine ⟨hrel.laid ht.laid, hrel.live.trans ht.live, ?grown, fun h hlt => ?shape, hcode, hpending, honce, hwaits,
    fun m x hx => ?starts, fun m hm => ?entries⟩
  case grown =>
    rw [hrel.next]
    exact Nat.le_trans ha.grown (Nat.le_of_eq (congrArg Array.size ht.arena.symm))
  case shape =>
    rw [hrel.shape, ← ha.shape h hlt]
    exact congrArg _ (ht.instruction? h)
  case starts =>
    obtain ⟨he, hn⟩ := (ht.entries_relink new m x).1 hx
    have hmem : x ∈ g.code.live := by
      rw [hs.live, mem_append]
      exact (hs.entries m x he).imp id mem_of_mem_head?
    rw [ha.live, mem_append] at hmem
    exact hmem.resolve_right hn
  case entries =>
    refine Option.ext fun x => ?_
    rw [ht.entries_relink, ha.entries ho m fun _ => hm, entries_toward_of_not_mem hm]
    exact and_iff_left_of_imp fun he => ha.entry_not_new hb he

/-- Nothing is emitted, nothing is taken back. -/
lemma undone_nil (ha : Ahead b [] g) (ho : b.Owned) (hb : Sound c f? log Y old' b) (hs : Sound c f? log' X old g)
    (hg : Owing [] g) : Undone b (g1.relink (emptied [])) := by
  have hnone : ∀ x, (emptied []).removed.contains x = false := by
    intro x
    rw [← Bool.not_eq_true, contains_emptied]
    exact not_mem_nil
  obtain ⟨hcut, -⟩ := @cut_eq_self g1 (emptied []) (fun _ _ s _ => hnone s) (fun _ d _ => hnone d) fun _ h _ => hnone h
  have hrel := ht.relinked (emptied [])
  have hpending : (g1.relink (emptied [])).pending = g.pending := by
    have hlinks : g1.code.linked.flatMap ((g1.cut (emptied [])).linksFrom (emptied []) ((emptied []).orphans g)) = [] := by
      refine flatMap_eq_nil_iff.2 fun x hx => ?_
      obtain ⟨-, j, hj, -⟩ := ht.mem_linked.1 hx
      rw [ht.linksFrom_cut _ hj, (new_of_kept fun d _ => hnone d).2]
    rw [hrel.pending, hlinks, append_nil, hcut, ht.pending]
  refine ht.undone_of ha ho hb hs (fun h hm => ?code) (fun l => ?pending) (fun l hsrc => ?once) fun m h => ?waits
  case code =>
    refine Eq.trans ?_ (ha.code h hm (.inr ho))
    by_cases hx : h ∈ g1.code.linked
    · obtain ⟨-, j, hj, -⟩ := ht.mem_linked.1 hx
      rw [hrel.mem h hx j ((ht.instruction? h).trans hj), (new_of_kept fun d _ => hnone d).1, hj]
    · exact (hrel.other h hx).trans (ht.instruction? h)
  case pending =>
    rw [hpending]
    exact ha.links l rfl (.inr ho)
  case once =>
    have honce := hg.once l hsrc
    rw [hpending]
    simp only [owed, count_append] at honce
    omega
  case waits =>
    have hagain : g1.code.linked.filter ((g1.cut (emptied [])).waitsAgain ((emptied []).orphans g) m) = [] := by
      refine filter_eq_nil_iff.2 fun x hx => ?_
      obtain ⟨-, j, hj, -⟩ := ht.mem_linked.1 hx
      rw [ht.waitsAgain_cut _ hj, orphanOf_of_kept fun d _ => hnone d]
      simp
    rw [hrel.waitingOf m, hagain, append_nil, hcut, waitingOf_congr ht.waiting]
    constructor
    · intro hm
      have hmem := (hs.waiting m h hm).1
      rw [ha.live, append_nil] at hmem
      exact (ha.waits ho m h hmem).1 hm
    · intro hm
      exact (ha.waits ho m h (hb.waiting m h hm).1).2 hm

variable (ha : Ahead b (d :: new) g) (ho : b.Owned) (hb : Sound c f? log Y old' b) (hu : Owing [] b)

include ha ho hb hu

lemma instruction?_relink (hm : h ∈ b.code.live) :
    (g1.relink (emptied (d :: new))).code.instruction? h = b.code.instruction? h := by
  have hrel := ht.relinked (emptied (d :: new))
  obtain ⟨i, hi⟩ := hb.laid.instruction?_isSome hm
  obtain ⟨j, hj, hmended⟩ := ha.mended hb hm hi ho hu
  by_cases hx : h ∈ g1.code.linked
  · rw [hrel.mem h hx j ((ht.instruction? h).trans hj), hmended.target, hmended.opcode, hmended.operand, hi]
  · -- only the targets of control transfers change
    have hplain : i.opcode.role = .plain := by
      by_contra hr
      exact hx (ht.mem_linked.2 ⟨hm, j, hj, by rw [hmended.opcode]; exact hr⟩)
    have hl := hb.linksTyped
    refine (hrel.other h hx).trans ((ht.instruction? h).trans ?_)
    rw [ha.code h hm (.inr ho), toward_cons, resolveAll_eq, hi]
    refine instruction?_resolveLinks_other (g := { b with pending := [] }) hi (hl.source?_ne hi (.inr hplain))
      fun m _ hw => ?_
    have hrole := (role?_eq hi).symm.trans (hl.waiting m h hw)
    rw [hplain] at hrole
    cases hrole

/-- For each reference that is lost, a link of `b` is pending again. -/
lemma mem_lost {l : Link} : l ∈ g1.code.linked.flatMap
    ((g1.cut (emptied (d :: new))).linksFrom (emptied (d :: new)) ((emptied (d :: new)).orphans g)) ↔
      l ∈ b.pending ∧ l.source?.isSome := by
  rw [mem_flatMap]
  constructor
  · rintro ⟨x, hx, hl⟩
    have hm := (ht.mem_linked.1 hx).1
    obtain ⟨i, hi⟩ := hb.laid.instruction?_isSome hm
    obtain ⟨j, hj, hmended⟩ := ha.mended hb hm hi ho hu
    rw [ht.linksFrom_cut _ hj, hmended.links] at hl
    exact ⟨hl.1, by rw [hl.2]; rfl⟩
  · rintro ⟨hl, hsrc⟩
    obtain ⟨x, hx⟩ := isSome_iff_exists.1 hsrc
    have hm : x ∈ b.code.live := hb.mem_live (hb.source_mem hl hx)
    obtain ⟨i, hi⟩ := hb.laid.instruction?_isSome hm
    obtain ⟨j, hj, hmended⟩ := ha.mended hb hm hi ho hu
    refine ⟨x, ht.mem_linked.2 ⟨hm, j, hj, ?_⟩, ?_⟩
    · rw [hmended.opcode]
      rcases hb.linksTyped.of_source hi hl hx with ⟨-, hr⟩ | ⟨-, hr⟩ <;> simp [hr]
    · rw [ht.linksFrom_cut _ hj, hmended.links]
      exact ⟨hl, hx⟩

omit hb hu ho in
lemma pending_relink : (g1.relink (emptied (d :: new))).pending = g.reopened (emptied (d :: new)) ++ g1.code.linked.flatMap
      ((g1.cut (emptied (d :: new))).linksFrom (emptied (d :: new)) ((emptied (d :: new)).orphans g)) := by
  have hreopened : g1.reopened (emptied (d :: new)) = g.reopened (emptied (d :: new)) := by
    rw [reopened, reopened, frame_of_context ht.context, ht.orphans]
  have hkept : (g1.pending.filter fun link => link.source?.all fun h => !(emptied (d :: new)).removed.contains h) =
      [] := by
    rw [ht.pending]
    refine filter_eq_nil_iff.2 fun l hl => ?_
    obtain ⟨s, hs, hsrc⟩ := ha.sources (by simp) l hl
    simp [hsrc, contains_emptied.2 hs]
  rw [(ht.relinked _).pending, cut, hkept, hreopened, nil_append]

lemma mem_pending_relink {l : Link} : l ∈ (g1.relink (emptied (d :: new))).pending ↔ l ∈ b.pending := by
  rw [ht.pending_relink ha, mem_append, ht.mem_lost ha ho hb hu]
  cases l with
  | entry m =>
    rw [ha.mem_reopened ho hb]
    simp [source?]
  | jump s | handler s | finalizer s =>
    have hno : ∀ l : Link, l.source?.isSome → l ∉ g.reopened (emptied (d :: new)) := by
      intro l hsrc hl
      rw [mem_reopened_source hl] at hsrc
      cases hsrc
    rw [or_iff_right (hno _ rfl)]
    simp [source?]

/-- No reference is lost twice. -/
lemma nodup_lost : (g1.code.linked.flatMap
    ((g1.cut (emptied (d :: new))).linksFrom (emptied (d :: new)) ((emptied (d :: new)).orphans g))).Nodup := by
  have hfrom : ∀ x ∈ g1.code.linked, ∃ i j, Mended b (d :: new) g x i j ∧
      (g1.cut (emptied (d :: new))).linksFrom (emptied (d :: new)) ((emptied (d :: new)).orphans g) x =
        newLinks (emptied (d :: new)) ((emptied (d :: new)).orphans g) x j := by
    intro x hx
    have hm := (ht.mem_linked.1 hx).1
    obtain ⟨i, hi⟩ := hb.laid.instruction?_isSome hm
    obtain ⟨j, hj, hmended⟩ := ha.mended hb hm hi ho hu
    exact ⟨i, j, hmended, ht.linksFrom_cut _ hj⟩
  rw [nodup_flatMap]
  constructor
  · intro x hx
    obtain ⟨i, j, hmended, heq⟩ := hfrom x hx
    rw [heq]
    exact hmended.nodup
  · refine List.Pairwise.imp_of_mem ?_ (nodup_linked g1.code)
    intro x y hx hy hne l hlx hly
    obtain ⟨i, j, hmended, heq⟩ := hfrom x hx
    obtain ⟨i', j', hmended', heq'⟩ := hfrom y hy
    rw [heq, hmended.links] at hlx
    rw [heq', hmended'.links] at hly
    exact hne (some.inj (hlx.2.symm.trans hly.2))

lemma count_pending_relink {l : Link} (hsrc : l.source?.isSome) :
    (g1.relink (emptied (d :: new))).pending.count l ≤ 1 := by
  rw [ht.pending_relink ha, count_append, count_eq_zero.2, Nat.zero_add]
  · exact nodup_iff_count_le_one.1 (ht.nodup_lost ha ho hb hu) l
  · intro hl
    rw [mem_reopened_source hl] at hsrc
    cases hsrc

lemma mem_waitingOf_relink (hs : Sound c f? log' X old g) (m : String) :
    h ∈ (g1.relink (emptied (d :: new))).waitingOf m ↔ h ∈ b.waitingOf m := by
  rw [(ht.relinked _).waitingOf m, ht.waitingOf_cut, mem_append, mem_filter, mem_filter]
  by_cases hm : h ∈ b.code.live
  · obtain ⟨i, hi⟩ := hb.laid.instruction?_isSome hm
    obtain ⟨j, hj, hmended⟩ := ha.mended hb hm hi ho hu
    have hagain : (h ∈ g1.code.linked ∧
        (g1.cut (emptied (d :: new))).waitsAgain ((emptied (d :: new)).orphans g) m h = true) ↔
        .entry m ∈ b.pending ∧ h ∈ b.waitingOf m := by
      rw [ht.waitsAgain_cut _ hj, hmended.waits]
      refine and_iff_right_of_imp fun hwait => ht.mem_linked.2 ⟨hm, j, hj, ?_⟩
      have hr := (role?_eq hi).symm.trans (hb.linksTyped.waiting m h hwait.2)
      rw [hmended.opcode, some.inj hr]
      simp
    have hmiss : (!(emptied (d :: new)).removed.contains h) = true := by
      rw [Bool.not_eq_true', ← Bool.not_eq_true, contains_emptied]
      exact ha.not_mem_new hb.laid hm
    rw [hagain, and_iff_left hmiss, ha.waits ho m h hm]
    by_cases hmem : .entry m ∈ b.pending
    · rw [waitingOf_toward_of_mem hmem]
      simp [hmem]
    · rw [waitingOf_toward_of_not_mem hmem]
      simp [hmem]
  · refine iff_of_false ?_ fun hwait => hm (hb.waiting m h hwait).1
    rintro (⟨hwait, hmiss⟩ | ⟨hl, -⟩)
    · have hmem := (hs.waiting m h hwait).1
      rw [ha.live, mem_append] at hmem
      rw [contains_emptied.2 (hmem.resolve_left hm)] at hmiss
      cases hmiss
    · exact hm (ht.mem_linked.1 hl).1

end Stripped

/-- **Relinking undoes what was emitted behind a state.** -/
lemma Stripped.undone (ht : Stripped b g g1) (ha : Ahead b new g) (ho : b.Owned) (hb : Sound c f? log Y old' b)
    (hs : Sound c f? log' X old g) (hu : Owing [] b) (hg : Owing [] g) : Undone b (g1.relink (emptied new)) := by
  cases new with
  | nil => exact ht.undone_nil ha ho hb hs hg
  | cons d new =>
    exact ht.undone_of ha ho hb hs (fun h hm => ht.instruction?_relink ha ho hb hu hm)
      (fun l => ht.mem_pending_relink ha ho hb hu) (fun l hsrc => ht.count_pending_relink ha ho hb hu hsrc)
      fun m h => ht.mem_waitingOf_relink ha ho hb hu hs m

/-! ### Going on from there -/

namespace Undone

variable {r : Generator} (hu : Undone b r) (hk : r.constructs = b.constructs)

include hu

lemma role? (hb : Sound c f? log Y old' b) (hm : h ∈ b.code.live) : r.code.role? h = b.code.role? h :=
  role?_congr (hu.shape h (hb.laid.lt_next hm))

include hk

/-- What was undone is as sound as before. -/
lemma sound (hb : Sound c none log Y old' b) : Sound c none log Y old' r := by
  obtain ⟨-, hbranches, hloops, hguards, htries⟩ : r.frame = b.frame ∧ r.branches = b.branches ∧ r.loops = b.loops ∧
      r.elseGuards = b.elseGuards ∧ r.tries = b.tries := by
    simpa [constructs] using hk
  have hheld : r.held = b.held := by rw [held, held, hbranches, hloops, hguards, htries]
  have hnew : ∀ h ∈ old', h ∈ b.code.live := fun h hm => hb.mem_live hm
  have hold : ∀ h ∈ c.code.live, h ∈ b.code.live := fun h hm => by rw [hb.live]; exact mem_append_left _ hm
  refine { hb with
    laid := hu.laid
    live := hu.live.trans hb.live
    grown := Nat.le_trans hb.grown hu.grown
    kept := fun h hm i hi => by rw [hu.code h (hold h hm)]; exact hb.kept h hm i hi
    plain := fun h hm i hi => hb.plain h hm i (hu.code h (hnew h hm) ▸ hi)
    narrow := fun h hm e he => hb.narrow h hm e (hu.shape h (hb.bound hm) ▸ he)
    leap := fun h hm i hi hr => by
      rw [hheld, hu.pending]
      exact hb.leap h hm i (hu.code h (hnew h hm) ▸ hi) hr
    protect := fun h hm i hi hr => hb.protect h hm i (hu.code h (hnew h hm) ▸ hi) hr
    call := fun h hm i hi hr => ?call
    entries := fun m d hd => ?entries
    waiting := fun m h hm => ?waiting
    once := fun m m' h hm hm' => hb.once m m' h ((hu.waits m h).1 hm) ((hu.waits m' h).1 hm')
    links := fun l hl => (hb.links l ((hu.pending l).1 hl)).mono
      (fun h hm => ⟨hm, hu.shape h (hb.bound hm)⟩) id
    jumps := fun h hm => by
      rw [hheld] at hm
      obtain ⟨hm, hr⟩ := hb.jumps h hm
      exact ⟨hm, (hu.role? hb (hnew h hm)).trans hr⟩
    loops := fun l hl => ?loops
    tries := fun t ht => by
      obtain ⟨hm, hr⟩ := hb.tries t (htries ▸ ht)
      exact ⟨hm, (hu.role? hb (hnew _ hm)).trans hr⟩
    named := fun _ h => by cases h }
  case call =>
    rw [hu.live] at hm
    have hcall := hb.call h hm i (hu.code h hm ▸ hi) hr
    rcases hcall with ⟨d, ht, hd | ⟨hd, m, he⟩⟩ | ⟨ht, ⟨m, hw⟩ | hx⟩
    · exact .inl ⟨d, ht, .inl hd⟩
    · have hne : old' ≠ [] := ne_nil_of_mem (mem_of_mem_head? hd)
      exact .inl ⟨d, ht, .inr ⟨hd, m, (hu.entries m (hb.entry_not_mem hne m)).trans he⟩⟩
    · exact .inr ⟨ht, .inl ⟨m, (hu.waits m h).2 hw⟩⟩
    · exact .inr ⟨ht, .inr hx⟩
  case entries =>
    by_cases hm : .entry m ∈ b.pending
    · have hnil : old' = [] := hb.links _ hm
      have hmem := hu.starts m d hd
      rw [hb.live, hnil, append_nil] at hmem
      exact .inl hmem
    · exact hb.entries m d ((hu.entries m hm) ▸ hd)
  case waiting =>
    obtain ⟨hl, i, hi, hr⟩ := hb.waiting m h ((hu.waits m h).1 hm)
    exact ⟨by rw [hu.live]; exact hl, i, (hu.code h hl).trans hi, hr⟩
  case loops =>
    refine (hb.loops l (hloops ▸ hl)).mono (fun _ hm _ => hm) (fun x hx => hu.shape x ?_) fun _ _ _ h => h
    refine Nat.lt_of_not_le fun hge => hx ?_
    exact shape?_eq_none hge

/-- What was undone owes what it owed before. -/
lemma owing (hb : Sound c f? log Y old' b) (ho : Owing [] b) : Owing [] r := by
  obtain ⟨-, hbranches, hloops, hguards, htries⟩ : r.frame = b.frame ∧ r.branches = b.branches ∧ r.loops = b.loops ∧
      r.elseGuards = b.elseGuards ∧ r.tries = b.tries := by
    simpa [constructs] using hk
  have hheld : r.held = b.held := by rw [held, held, hbranches, hloops, hguards, htries]
  refine ⟨fun l hsrc => ?once, fun l hl => ?unmet, fun m s hs => ?calls⟩
  case once =>
    have honce := ho.once l hsrc
    rw [nil_append, owed, count_append] at honce ⊢
    rw [hheld, htries]
    by_cases hl : l ∈ r.pending
    · have hr := hu.once l hsrc
      have hpos := count_pos_iff.2 ((hu.pending l).1 hl)
      omega
    · rw [count_eq_zero.2 hl]
      omega
  case unmet =>
    have hmem : l ∈ [] ++ b.owed := by
      rw [nil_append, owed, mem_append] at hl ⊢
      rw [hheld, htries] at hl
      exact hl.imp_left (hu.pending l).1
    refine (ho.unmet l hmem).congr fun s hs => hu.code s ?_
    rw [nil_append, owed, mem_append, mem_append] at hmem
    rcases hmem with hmem | hmem | hmem
    · exact hb.mem_live (hb.source_mem hmem hs)
    · obtain ⟨x, hx, rfl⟩ := mem_map.1 hmem
      exact some.inj hs ▸ hb.mem_live (hb.jumps x hx).1
    · obtain ⟨t, ht, hmem⟩ := mem_flatMap.1 hmem
      have henter : s = t.enter := by
        unfold OpenTry.owed at hmem
        split at hmem <;> simp only [mem_cons, not_mem_nil, or_false] at hmem
        · rcases hmem with rfl | rfl <;> exact (some.inj hs).symm
        · rw [hmem] at hs
          exact (some.inj hs).symm
      exact henter ▸ hb.mem_live (hb.tries t ht).1
  case calls =>
    have hwait := (hu.waits m s).1 hs
    rw [hu.role? hb (hb.waiting m s hwait).1]
    exact ho.calls m s hwait

end Undone

end Undone

end NeoScript.Generator
