import NeoScript.Proofs.Generator.Relink
import NeoScript.Proofs.Generator.Rewire

/-!
# Removing an instruction keeps the invariant

Only instructions that push a constant are removed while a method is emitted. If it is not the method's first
instruction, then no entry and no call refers to it, and what leads to it goes on to the instruction behind it. If
it is the only new instruction, the method is as if it had just been opened.
-/

namespace NeoScript.Generator

open List Option CodeMap Instruction Table

variable {x : Handle} {t : Target} {l : Link}

lemma removeInstruction_eq {g : Generator} {pre post : List Handle} {r : Handle} (hl : g.code.Laid)
    (hs : g.code.live = pre ++ r :: post) : ∃ e : TraceEvent, g.removeInstruction r =
      ({ g with code := .layOut g.code.arena (pre ++ post).toArray }.note e).relink ⟨.ofList [r], post.head?⟩ := by
  obtain ⟨e, heq⟩ := @removeSpan_eq g pre [r] post hl hs (by simp)
  refine ⟨e, heq ▸ ?_⟩
  simp [removeInstruction, hl.start?_split hs, hl.last?_split hs]

/-- What the removal of an instruction leaves as it was. -/
lemma removeInstruction_keeps {g : Generator} (hl : g.code.Laid) (r : Handle) :
    (g.removeInstruction r).context = g.context ∧ (g.removeInstruction r).code.shape? = g.code.shape? := by
  by_cases hr : r ∈ g.code.live
  · obtain ⟨pre, post, hs⟩ := append_of_mem hr
    obtain ⟨e, heq⟩ := removeInstruction_eq hl hs
    have hperm : (r :: (pre ++ post)).Perm g.code.live := by
      rw [hs]
      exact perm_middle.symm
    have hlaid : (CodeMap.layOut g.code.arena (pre ++ post).toArray).Laid :=
      laid_layOut (nodup_cons.1 (hperm.nodup_iff.2 hl.nodup)).2 fun h hm =>
        hl.bound h (hperm.mem_iff.1 (mem_cons_of_mem _ hm))
    have hrel := @relink_relinked ({ g with code := .layOut g.code.arena (pre ++ post).toArray }.note e)
      ⟨.ofList [r], post.head?⟩ hlaid
    rw [heq]
    exact ⟨hrel.context, hrel.shape⟩
  · have hself : g.removeInstruction r = g := by rw [removeInstruction, hl.start?_eq_none hr]
    rw [hself]
    exact ⟨rfl, rfl⟩

/-- A gap in which no method starts and no call waits changes nothing but the code. -/
lemma cut_eq_self {g : Generator} {gap : Gap}
    (hp : ∀ l ∈ g.pending, ∀ s, l.source? = some s → gap.removed.contains s = false)
    (he : ∀ m d, g.entries.get? m = some d → gap.removed.contains d = false)
    (hw : ∀ m, ∀ h ∈ g.waitingOf m, gap.removed.contains h = false) :
    g.cut gap = g ∧ ∀ d, (gap.orphans g).get? d = none := by
  have hnone : g.entries.entries.filter (fun e => gap.removed.contains e.2) = [] :=
    filter_eq_nil_iff.2 fun e hm => by simp [he e.1 e.2 (get?_eq_some_iff.2 hm)]
  have horphans : ∀ d, (gap.orphans g).get? d = none := fun d => by
    unfold Gap.orphans
    split
    · rfl
    · rw [hnone]
      rfl
  have hempty : (gap.orphans g).entries = [] := by
    unfold Gap.orphans
    split
    · rfl
    · rw [hnone]
      rfl
  have hreopened : g.reopened gap = [] := by
    unfold reopened
    cases g.frame with
    | none => rfl
    | some frame => simp [hempty]
  have hpending : g.pending.filter (fun link => link.source?.all fun h => !gap.removed.contains h) = g.pending := by
    refine List.filter_eq_self.2 fun l hl => ?_
    cases hsrc : l.source? with
    | none => rfl
    | some s => simp [hp l hl s hsrc]
  have hentries : (g.entries.filterMap fun _ h => if gap.removed.contains h then gap.newEntry g else some h) =
      g.entries := filterMap_eq_self fun e hm => by
    rw [he e.1 e.2 (get?_eq_some_iff.2 hm)]
    rfl
  have hwaiting : (g.waiting.map fun calls => calls.filter fun h => !gap.removed.contains h) = g.waiting := by
    refine filterMap_eq_self fun e hm => congrArg some (List.filter_eq_self.2 fun h hh => ?_)
    rw [hw e.1 h (by rw [waitingOf, get?_eq_some_iff.2 hm]; exact hh)]
    rfl
  refine ⟨?_, horphans⟩
  rw [cut, hreopened, hpending, hentries, hwaiting, append_nil]

/-- The links that replace the references to `r` in the target `t` of the instruction `x`. -/
def lostLinks (r x : Handle) : Target → List Link
  | .code d => if d = r then [.jump x] else []
  | .handlers e f => (if e = some r then [.handler x] else []) ++ if f = some r then [.finalizer x] else []
  | .unresolved | .scriptEnd => []

lemma nodup_lostLinks (r x : Handle) (t : Target) : (lostLinks r x t).Nodup := by
  cases t with
  | code d => by_cases hd : d = r <;> simp [lostLinks, hd]
  | handlers e f => by_cases he : e = some r <;> by_cases hf : f = some r <;> simp [lostLinks, he, hf]
  | _ => simp [lostLinks]

lemma source_of_mem_lostLinks {r : Handle} (hl : l ∈ lostLinks r x t) : l.source? = some x := by
  cases t with
  | code d =>
    by_cases hd : d = r <;> simp [lostLinks, hd] at hl
    rw [hl]
    rfl
  | handlers e f =>
    simp only [lostLinks, mem_append] at hl
    rcases hl with hl | hl <;> split at hl <;> simp at hl <;> rw [hl] <;> rfl
  | _ => simp [lostLinks] at hl

lemma mem_handles_of_lost {r : Handle} (hl : l ∈ lostLinks r x t) : r ∈ t.handles := by
  cases t with
  | code d =>
    by_cases hd : d = r <;> simp [lostLinks, hd] at hl
    simp [Target.handles, hd]
  | handlers e f =>
    simp only [lostLinks, mem_append] at hl
    rcases hl with hl | hl <;> split at hl <;> simp_all [Target.handles]
  | _ => simp [lostLinks] at hl

lemma moveRefs_links {r : Handle} {ss : List Handle} (hss : ss = t.handles.filter fun s => s == r) :
    (moveRefs none x ss t).2 = lostLinks r x t := by
  subst hss
  cases t with
  | code d => by_cases hd : d = r <;> simp [Target.handles, lostLinks, hd, moveRefs, linkFor]
  | handlers e f =>
    cases e with
    | none =>
      cases f with
      | none => simp [Target.handles, lostLinks, moveRefs]
      | some f => by_cases hf : f = r <;> simp [Target.handles, lostLinks, hf, moveRefs, linkFor]
    | some e =>
      cases f with
      | none => by_cases he : e = r <;> simp [Target.handles, lostLinks, he, moveRefs, linkFor]
      | some f =>
        by_cases he : e = r <;> by_cases hf : f = r <;>
          simp [Target.handles, lostLinks, he, hf, moveRefs, linkFor, Target.retarget, Target.swap]
  | _ => simp [Target.handles, lostLinks, moveRefs]

lemma moveRefs_some {s : Handle} (ss : List Handle) : (moveRefs (some s) x ss t).2 = [] := by
  induction ss generalizing t with
  | nil => rfl
  | cons s' ss ih => simp [moveRefs, ih]

/-- What relinking does if only `r` is gone, where no method starts, and the live instructions are `left`. -/
structure Bypassed (left : List Handle) (r : Handle) (successor : Option Handle) (g g' : Generator) : Prop where
  context : g'.context = g.context
  entries : g'.entries = g.entries
  waitingOf : g'.waitingOf = g.waitingOf
  live : g'.code.live = left
  next : g'.code.nextHandle = g.code.nextHandle
  shape : g'.code.shape? = g.code.shape?
  laid : g'.code.Laid
  dead : ∀ x, x ∉ left → g'.code.instruction? x = g.code.instruction? x
  same : ∀ x i, g.code.instruction? x = some i → r ∉ i.refs → g'.code.instruction? x = some i
  moved : ∀ x ∈ left, ∀ i, g.code.instruction? x = some i → r ∈ i.refs →
    g'.code.instruction? x = some { i with target := i.target.retarget r successor }
  added : ∃ more : List Link, g'.pending = g.pending ++ more ∧ more.Nodup ∧ ∀ l, l ∈ more ↔ successor = none ∧
    ∃ x ∈ left, ∃ i, g.code.instruction? x = some i ∧ i.opcode.role ≠ .plain ∧ l ∈ lostLinks r x i.target

lemma Bypassed.mem_pending {left : List Handle} {r : Handle} {successor : Option Handle} {g g' : Generator}
    (h : Bypassed left r successor g g') : l ∈ g'.pending ↔ l ∈ g.pending ∨ successor = none ∧
      ∃ x ∈ left, ∃ i, g.code.instruction? x = some i ∧ i.opcode.role ≠ .plain ∧ l ∈ lostLinks r x i.target := by
  obtain ⟨more, hp, -, hmore⟩ := h.added
  rw [hp, mem_append, hmore]

lemma relink_bypassed {g : Generator} {r : Handle} {successor : Option Handle} (hl : g.code.Laid)
    (hne : successor ≠ some r) (hp : ∀ l ∈ g.pending, l.source? ≠ some r)
    (he : ∀ m, g.entries.get? m ≠ some r) (hw : ∀ m, r ∉ g.waitingOf m) :
    Bypassed g.code.live r successor g (g.relink ⟨.ofList [r], successor⟩) := by
  let gap : Gap := ⟨.ofList [r], successor⟩
  have hcontains : ∀ x, gap.removed.contains x = true ↔ x = r := fun x => by
    simp only [gap, Std.HashSet.contains_ofList, contains_cons, contains_nil, Bool.or_false, beq_iff_eq]
  have hmiss : ∀ x, x ≠ r → gap.removed.contains x = false := fun x hx => by
    rwa [← Bool.not_eq_true, hcontains]
  obtain ⟨hcut, horphans⟩ := @cut_eq_self g gap
    (fun l hl s hsrc => hmiss s (by rintro rfl; exact hp l hl hsrc))
    (fun m d hd => hmiss d (by rintro rfl; exact he m hd))
    (fun m h hh => hmiss h (by rintro rfl; exact hw m hh))
  have hrel := @relink_relinked g gap hl
  rw [hcut] at hrel
  have horphan : ∀ i, orphanOf (gap.orphans g) i = none := fun i => by
    unfold orphanOf
    split
    · exact horphans _
    · rfl
  have hstale : ∀ i, ∀ s ∈ staleRefs gap i, s = r := fun i s hs => (hcontains s).1 (mem_filter.1 hs).2
  have hstale_nil : ∀ i, staleRefs gap i = [] ↔ r ∉ i.refs := fun i => by
    rw [staleRefs, filter_eq_nil_iff]
    simp only [hcontains]
    exact ⟨fun h hm => h r hm rfl, fun h x hx e => h (e ▸ hx)⟩
  have htarget : ∀ x i, newTarget gap (gap.orphans g) x i =
      if staleRefs gap i = [] then i.target else i.target.retarget r successor := fun x i => by
    rw [newTarget, horphan]
    exact moveRefs_eq (hstale i) hne
  have hlinked : ∀ x ∈ g.code.live, ∀ i, g.code.instruction? x = some i → r ∈ i.refs → x ∈ g.code.linked :=
    fun x hx i hi hm => (mem_linked hl).2 ⟨hx, i, hi, role_of_mem_refs hm⟩
  have hlost : ∀ x ∈ g.code.linked, ∃ i, (g.code.instruction? x = some i ∧ i.opcode.role ≠ .plain) ∧
      g.linksFrom gap (gap.orphans g) x = if successor = none then lostLinks r x i.target else [] := fun x hx => by
    obtain ⟨-, i, hi, hr⟩ := (mem_linked hl).1 hx
    refine ⟨i, ⟨hi, hr⟩, ?_⟩
    rw [linksFrom, hi, map_some, getD_some, newLinks, horphan]
    change (moveRefs successor x (staleRefs gap i) i.target).2 = _
    have hstale : staleRefs gap i = i.target.handles.filter fun s => s == r := by
      rw [staleRefs, refs_eq hr]
      refine filter_congr fun s _ => ?_
      rw [Bool.eq_iff_iff, hcontains, beq_iff_eq]
    split
    · next hnone => rw [hnone, moveRefs_links hstale]
    · next hsome =>
      obtain ⟨s, rfl⟩ := ne_none_iff_exists'.1 hsome
      exact moveRefs_some _
  have hsource : ∀ x ∈ g.code.linked, ∀ l ∈ g.linksFrom gap (gap.orphans g) x, l.source? = some x := fun x hx l hm => by
    obtain ⟨i, -, hlinks⟩ := hlost x hx
    rw [hlinks] at hm
    split at hm
    · exact source_of_mem_lostLinks hm
    · cases hm
  refine {
    context := hrel.context
    entries := hrel.entries
    waitingOf := ?waitingOf
    live := hrel.live
    next := hrel.next
    shape := hrel.shape
    laid := hrel.laid hl
    dead := fun x hx => hrel.other x fun hm => hx ((mem_linked hl).1 hm).1
    same := fun x i hi hm => ?same
    moved := fun x hx i hi hm => ?target
    added := ⟨_, hrel.pending, ?nodup, fun l => mem_flatMap.trans ⟨?lost, ?added⟩⟩ }
  case waitingOf =>
    funext m
    rw [hrel.waitingOf m, filter_eq_nil_iff.2, append_nil]
    intro x _
    cases hi : g.code.instruction? x with
    | none => simp [waitsAgain, hi]
    | some i => simp [waitsAgain, hi, horphan]
  case same =>
    by_cases hx : x ∈ g.code.linked
    · rw [hrel.mem x hx i hi, htarget, if_pos ((hstale_nil i).2 hm)]
    · rw [hrel.other x hx, hi]
  case target =>
    rw [hrel.mem x (hlinked x hx i hi hm) i hi, htarget, if_neg fun h => (hstale_nil i).1 h hm]
  case nodup =>
    refine nodup_flatMap.2 ⟨fun x hx => ?_, (nodup_linked _).imp_of_mem fun hx hy hne l hl hl' => ?_⟩
    · obtain ⟨i, -, hlinks⟩ := hlost x hx
      rw [hlinks]
      split
      · exact nodup_lostLinks _ _ _
      · exact nodup_nil
    · exact hne (some.inj ((hsource _ hx l hl).symm.trans (hsource _ hy l hl')))
  case lost =>
    rintro ⟨x, hx, hm⟩
    obtain ⟨i, hi, hlinks⟩ := hlost x hx
    rw [hlinks] at hm
    split at hm
    · next hnone => exact ⟨hnone, x, ((mem_linked hl).1 hx).1, i, hi.1, hi.2, hm⟩
    · cases hm
  case added =>
    rintro ⟨hnone, x, hx, i, hi, hr, hm⟩
    have hx := (mem_linked hl).2 ⟨hx, i, hi, hr⟩
    obtain ⟨j, hj, hlinks⟩ := hlost x hx
    obtain rfl := some.inj (hi.symm.trans hj.1)
    exact ⟨x, hx, by rw [hlinks, if_pos hnone]; exact hm⟩

namespace Sound

variable {b : Generator} {f? : Option String} {log : List (Handle × String)} {X : Handle → Prop}
  {new pre post : List Handle} {g : Generator} {r : Handle}

variable (hs : Sound b f? log X new g) (hnew : new = pre ++ r :: post) (hpre : pre ≠ []) {x : Handle} {i : Instruction}
include hnew

lemma mem_rest (hx : x ∈ new) (hne : x ≠ r) : x ∈ pre ++ post := by
  rw [hnew] at hx
  simp only [mem_append, mem_cons] at hx ⊢
  tauto

lemma mem_of_rest (hx : x ∈ pre ++ post) : x ∈ new := by
  rw [hnew]
  simp only [mem_append, mem_cons] at hx ⊢
  tauto

include hs hpre

/-- The first new instruction is none of those behind another. -/
lemma head?_ne_of_split : (∀ d ∈ r :: post, new.head? ≠ some d) ∧ (pre ++ post).head? = new.head? := by
  obtain ⟨a, pre', rfl⟩ := exists_cons_of_ne_nil hpre
  have hnd := hs.laid.nodup
  rw [hs.live, hnew] at hnd
  have hnd' := (nodup_append.1 hnd).2.1
  rw [cons_append, nodup_cons] at hnd'
  refine ⟨fun d hd hh => ?_, by rw [hnew]; rfl⟩
  rw [hnew, cons_append, head?_cons, some.injEq] at hh
  subst hh
  exact hnd'.1 (mem_append_right _ hd)

/-- A call leads to a method's first instruction, so not to one behind the first of the new code. -/
lemma call_refs : ∀ x ∈ g.code.live, ∀ i, g.code.instruction? x = some i → i.opcode.role = .call → r ∉ i.refs := by
  intro x hx i hi hr hmem
  obtain ⟨hback, -⟩ := hs.head?_ne_of_split hnew hpre
  rw [refs_eq (by simp [hr])] at hmem
  rcases hs.call x hx i hi hr with ⟨d, ht, hd⟩ | ⟨hu, -⟩
  · rw [ht, Target.handles, mem_singleton] at hmem
    subst hmem
    exact hd.elim (fun ho => hs.not_mem_new ho (by rw [hnew]; simp)) fun hh => hback r mem_cons_self hh.1
  · rw [hu] at hmem
    cases hmem

lemma old_refs : ∀ x ∈ b.code.live, ∀ i, g.code.instruction? x = some i → r ∉ i.refs := by
  intro x hx i hi hmem
  obtain ⟨j, hj⟩ := hs.base.instruction?_isSome hx
  rcases hs.kept x hx j hj with hj' | ⟨hjr, -, d, -, hj'⟩
  · rw [hi, some.injEq] at hj'
    subst hj'
    exact hs.not_mem_new (hs.closed x hx i hj r hmem) (by rw [hnew]; simp)
  · rw [hi, some.injEq] at hj'
    subst hj'
    exact hs.call_refs hnew hpre x (hs.mem_live_old hx) _ hi hjr hmem

/-- What refers to the instruction is a leap or a protected block of the new code. -/
lemma source_of_ref (hx : x ∈ b.code.live ++ pre ++ post) (hi : g.code.instruction? x = some i) (hm : r ∈ i.refs) :
    x ∈ pre ++ post ∧ (i.opcode.role = .leap ∨ i.opcode.role = .protect) := by
  have hxl : x ∈ g.code.live := by
    rw [hs.live, hnew]
    simp only [mem_append, mem_cons] at hx ⊢
    tauto
  refine ⟨?_, ?_⟩
  · rw [append_assoc, mem_append] at hx
    exact hx.resolve_left fun ho => hs.old_refs hnew hpre x ho i hi hm
  · cases hr : i.opcode.role with
    | leap => exact .inl rfl
    | protect => exact .inr rfl
    | call => exact absurd hm (hs.call_refs hnew hpre x hxl i hi hr)
    | plain => exact absurd hr (role_of_mem_refs hm)

/-- A reference that is lost is replaced by a link of the right kind. -/
lemma source_of_lost {l : Link} (hx : x ∈ b.code.live ++ pre ++ post)
    (hi : g.code.instruction? x = some i) (hplain : i.opcode.role ≠ .plain) (hl : l ∈ lostLinks r x i.target) :
    r ∈ i.refs ∧ x ∈ pre ++ post ∧ i.opcode.role = l.role := by
  have hrefs : r ∈ i.refs := by
    rw [refs_eq hplain]
    exact mem_handles_of_lost hl
  obtain ⟨hxn, hr⟩ := hs.source_of_ref hnew hpre hx hi hrefs
  have hxnew := mem_of_rest hnew hxn
  refine ⟨hrefs, hxn, ?_⟩
  rcases hr with hr | hr
  · rcases hs.leap x hxnew i hi hr with ⟨d, -, -, ht⟩ | ⟨ht, -⟩ <;> rw [ht] at hl
    · by_cases hd : d = r <;> simp [lostLinks, hd] at hl
      rw [hr, hl, Link.role]
    · cases hl
  · obtain ⟨e, f, ht, -⟩ := hs.protect x hxnew i hi hr
    rw [ht, lostLinks, mem_append] at hl
    rcases hl with hl | hl <;> split at hl <;> simp_all [Link.role]

/-- What the removal of a constant does that is not the first new instruction. -/
lemma bypassed (hc : g.code.constant? r = some true) :
    Bypassed (b.code.live ++ pre ++ post) r post.head? g (g.removeInstruction r) := by
  have hlive : g.code.live = (b.code.live ++ pre) ++ r :: post := by rw [hs.live, hnew, append_assoc]
  obtain ⟨e, heq⟩ := removeInstruction_eq hs.laid hlive
  obtain ⟨hback, -⟩ := hs.head?_ne_of_split hnew hpre
  have hrole : g.code.role? r = some .plain := role?_of_constant hc
  have hrold : r ∉ b.code.live := fun ho => hs.not_mem_new ho (by rw [hnew]; simp)
  have hnd : ((b.code.live ++ pre) ++ post).Nodup ∧ r ∉ (b.code.live ++ pre) ++ post := by
    have := hs.laid.nodup
    rw [hlive] at this
    have hperm := nodup_middle.1 this
    rw [nodup_cons] at hperm
    exact ⟨hperm.2, hperm.1⟩
  have hby := @relink_bypassed ({ g with code := .layOut g.code.arena (b.code.live ++ pre ++ post).toArray }.note e) r
    post.head? (laid_layOut hnd.1 fun h hm => ?_) (fun hh => ?_) (fun l hl hsrc => ?_) (fun m hm => ?_) fun m hm => ?_
  · rw [heq]
    exact ⟨hby.context, hby.entries, hby.waitingOf, hby.live, hby.next, hby.shape, hby.laid, hby.dead, hby.same, hby.moved,
      hby.added⟩
  · refine hs.laid.bound h ?_
    rw [hlive]
    simp only [mem_append, mem_cons] at hm ⊢
    tauto
  · exact hnd.2 (mem_append_right _ (mem_of_mem_head? hh))
  · have := (hs.links l hl)
    cases l with
    | entry m => cases hsrc
    | jump s | handler s | finalizer s =>
      obtain rfl := some.inj hsrc
      rw [this.2] at hrole
      cases hrole
  · exact (hs.entries m r hm).elim hrold (hback r mem_cons_self)
  · have := hs.linksTyped.waiting m r hm
    rw [hrole] at this
    cases this

/-- What follows the removed instruction may be led to in its place. -/
lemma next_of_split {s : Handle} (hh : post.head? = some s) : s ∈ pre ++ post ∧ (pre ++ post).head? ≠ some s := by
  obtain ⟨hback, hhead⟩ := hs.head?_ne_of_split hnew hpre
  have hm := mem_of_mem_head? hh
  exact ⟨mem_append_right _ hm, hhead ▸ hback s (mem_cons_of_mem _ hm)⟩

lemma rewired_excise (hc : g.code.constant? r = some true) :
    Rewired new (pre ++ post) g (g.removeInstruction r) := by
  have hlive : g.code.live = (b.code.live ++ pre) ++ r :: post := by rw [hs.live, hnew, append_assoc]
  have hby := hs.bypassed hnew hpre hc
  exact {
    laid := hby.laid
    sub := fun _ => mem_of_rest hnew
    gone := fun x hx hn => by
      by_cases hxr : x = r
      · rw [hxr, role?_of_constant hc]
      · exact absurd (mem_rest hnew hx hxr) hn
    head := (hs.head?_ne_of_split hnew hpre).2
    next := hby.next
    shape := hby.shape
    same := fun x hx => by
      by_cases hxl : x ∈ b.code.live ++ pre ++ post
      · have hxg : x ∈ g.code.live := by
          rw [hlive]
          simp only [mem_append, mem_cons] at hxl ⊢
          tauto
        obtain ⟨i, hi⟩ := hs.laid.instruction?_isSome hxg
        refine (hby.same x i hi fun hm => ?_).trans hi.symm
        obtain ⟨hxn, hr⟩ := hs.source_of_ref hnew hpre hxl hi hm
        have hx := hx (mem_of_rest hnew hxn)
        rw [role?_eq hi] at hx
        exact hr.elim (fun hr => hx.1 (by rw [hr])) fun hr => hx.2 (by rw [hr])
      · exact hby.dead x hxl
    entries := hby.entries
    waitingOf := hby.waitingOf
    frame := frame_of_context hby.context
    entry := fun m => hby.mem_pending.trans (or_iff_left fun ⟨_, _, _, _, _, _, hl⟩ => by
      cases source_of_mem_lostLinks hl) }

/-- A remaining instruction is as before, or led to the removed one. -/
lemma instruction?_excise (hc : g.code.constant? r = some true) (hx : x ∈ pre ++ post)
    (hi : (g.removeInstruction r).code.instruction? x = some i) :
    ∃ j, g.code.instruction? x = some j ∧ j.opcode.role = i.opcode.role ∧
      (r ∉ j.refs ∧ i = j ∨ r ∈ j.refs ∧ i = { j with target := j.target.retarget r post.head? }) := by
  have hby := hs.bypassed hnew hpre hc
  obtain ⟨j, hj⟩ := hs.laid.instruction?_isSome (hs.mem_live (mem_of_rest hnew hx))
  by_cases hm : r ∈ j.refs
  · rw [hby.moved x (by rw [append_assoc]; exact mem_append_right _ hx) j hj hm, some.injEq] at hi
    subst hi
    exact ⟨j, hj, rfl, .inr ⟨hm, rfl⟩⟩
  · rw [hby.same x j hj hm, some.injEq] at hi
    subst hi
    exact ⟨j, hj, rfl, .inl ⟨hm, rfl⟩⟩

/-- A remaining leap that led to the removed instruction leads to the next one, or is pending where there is none. -/
lemma leap_excise (hc : g.code.constant? r = some true) (hx : x ∈ pre ++ post)
    (hi : (g.removeInstruction r).code.instruction? x = some i) (hr : i.opcode.role = .leap) :
    (∃ d ∈ pre ++ post, (pre ++ post).head? ≠ some d ∧ i.target = .code d) ∨
      i.target = .unresolved ∧ (.jump x ∈ (g.removeInstruction r).pending ∨ x ∈ g.held ∨ X x) := by
  have hby := hs.bypassed hnew hpre hc
  obtain ⟨-, hhead⟩ := hs.head?_ne_of_split hnew hpre
  have hxnew := mem_of_rest hnew hx
  obtain ⟨j, hj, hrj, ⟨hm, rfl⟩ | ⟨hm, rfl⟩⟩ := hs.instruction?_excise hnew hpre hc hx hi
  · rcases hs.leap x hxnew i hj hr with ⟨d, hd, hne, ht⟩ | ⟨hu, hcase⟩
    · refine .inl ⟨d, mem_rest hnew hd ?_, hhead ▸ hne, ht⟩
      rintro rfl
      rw [refs_eq (by simp [hr]), ht] at hm
      exact hm mem_cons_self
    · exact .inr ⟨hu, hcase.imp (fun hp => hby.mem_pending.2 (.inl hp)) id⟩
  · rw [refs_eq (by simp [hrj.trans hr])] at hm
    rcases hs.leap x hxnew j hj (hrj.trans hr) with ⟨d, hd, hne, ht⟩ | ⟨hu, -⟩
    · rw [ht, Target.handles, mem_singleton] at hm
      subst hm
      cases hsucc : post.head? with
      | some s =>
        obtain ⟨hs', hne'⟩ := hs.next_of_split hnew hpre hsucc
        exact .inl ⟨s, hs', hne', by simp [ht, Target.retarget]⟩
      | none =>
        have hlive : x ∈ b.code.live ++ pre ++ post := by
          rw [append_assoc]
          exact mem_append_right _ hx
        refine .inr ⟨by simp [ht, Target.retarget], .inl (hby.mem_pending.2 (.inr ⟨hsucc, x, hlive, j, hj, ?_⟩))⟩
        exact ⟨by simp [hrj.trans hr], by simp [ht, lostLinks]⟩
    · rw [hu] at hm
      cases hm

lemma protect_excise (hc : g.code.constant? r = some true) (hx : x ∈ pre ++ post)
    (hi : (g.removeInstruction r).code.instruction? x = some i) (hr : i.opcode.role = .protect) :
    ∃ e f, i.target = .handlers e f ∧ ∀ d ∈ e.toList ++ f.toList, d ∈ pre ++ post ∧ (pre ++ post).head? ≠ some d := by
  obtain ⟨-, hhead⟩ := hs.head?_ne_of_split hnew hpre
  have hxnew := mem_of_rest hnew hx
  obtain ⟨j, hj, hrj, ⟨hm, rfl⟩ | ⟨hm, rfl⟩⟩ := hs.instruction?_excise hnew hpre hc hx hi
  · obtain ⟨e', f', ht, hd⟩ := hs.protect x hxnew i hj hr
    refine ⟨e', f', ht, fun d hdm => ⟨mem_rest hnew (hd d hdm).1 ?_, hhead ▸ (hd d hdm).2⟩⟩
    rintro rfl
    rw [refs_eq (by simp [hr]), ht] at hm
    exact hm hdm
  · obtain ⟨e', f', ht, hd⟩ := hs.protect x hxnew j hj (hrj.trans hr)
    refine ⟨_, _, by rw [ht]; rfl, fun d hdm => ?_⟩
    -- a half is what follows the removed instruction, or as before
    have hhalf : ∀ slot : Option Handle, (∀ d, slot = some d → d ∈ e'.toList ++ f'.toList) →
        Target.swap r post.head? slot = some d → d ∈ pre ++ post ∧ (pre ++ post).head? ≠ some d :=
      fun slot hslot hsw => by
        unfold Target.swap at hsw
        split at hsw
        · exact hs.next_of_split hnew hpre hsw
        · next hne =>
          have hd := hd d (hslot d hsw)
          exact ⟨mem_rest hnew hd.1 (by rintro rfl; exact hne hsw), hhead ▸ hd.2⟩
    rw [mem_append, mem_toList, mem_toList] at hdm
    rcases hdm with hdm | hdm
    · exact hhalf e' (fun d he => mem_append_left _ (mem_toList.2 he)) hdm
    · exact hhalf f' (fun d he => mem_append_right _ (mem_toList.2 he)) hdm

/-- **Removing a constant that is not the first new instruction keeps the invariant.** -/
lemma excise (hc : g.code.constant? r = some true) : Sound b f? log X (pre ++ post) (g.removeInstruction r) := by
  have hby := hs.bypassed hnew hpre hc
  refine hs.rewire_within (hs.rewired_excise hnew hpre hc) hby.context (by rw [hby.live, append_assoc])
    (fun x hx _ => hx) (fun x hx i hi hr => hs.leap_excise hnew hpre hc hx hi hr)
    (fun x hx i hi hr => hs.protect_excise hnew hpre hc hx hi hr)
    (fun l hl => (hby.mem_pending.1 hl).imp id fun ⟨_, x, hx, i, hi, hplain, hlost⟩ => ?links)
    fun x hx hcx => mem_rest hnew hx ?kept
  case links =>
    obtain ⟨-, hxn, hr⟩ := hs.source_of_lost hnew hpre hx hi hplain hlost
    exact .of_source (source_of_mem_lostLinks hlost) hxn (by rw [role?_of_shape? hby.shape, role?_eq hi, hr])
  case kept =>
    rintro rfl
    rw [hc] at hcx
    cases hcx

end Sound

end NeoScript.Generator
