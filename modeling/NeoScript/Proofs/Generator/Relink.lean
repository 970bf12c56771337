import NeoScript.Generator.Removal
import NeoScript.Proofs.Generator.Linking

/-!
# What relinking does

After a removal, each control transfer that is left is looked at once. What happens to it depends on nothing but
the instruction itself and on the gap: a call of a method that lost its entry waits again, and every other
reference into the gap goes to the instruction behind it, or is promised to the next one.
-/

namespace NeoScript.Generator

open List Option CodeMap Opcode

/-! ### Control transfers -/

lemma mem_linked {m : CodeMap} (hl : m.Laid) {h : Handle} :
    h ∈ m.linked ↔ h ∈ m.live ∧ ∃ i, m.instruction? h = some i ∧ i.opcode.role ≠ .plain := by
  rw [linked, Std.ExtTreeSet.mem_toList, hl.targets]
  refine and_congr_right fun hm => ?_
  obtain ⟨i, hi⟩ := hl.instruction?_isSome hm
  simp only [target?, hi, bind_some, Instruction.target?, some.injEq, exists_eq_left', ← hasTarget_eq_true]
  cases i.opcode.hasTarget <;> simp

lemma nodup_linked (m : CodeMap) : m.linked.Nodup :=
  Std.ExtTreeSet.ordered_toList.imp fun h => Nat.ne_of_lt (Nat.compare_eq_lt.1 h)

/-! ### One control transfer -/

/-- The method for which a call waits again. -/
def orphanOf (orphans : Table Handle String) (i : Instruction) : Option String :=
  match i.opcode.isCall, i.target with
  | true, .code stale => orphans.get? stale
  | _, _ => none

/-- The references of a control transfer into the gap. -/
def staleRefs (gap : Gap) (i : Instruction) : List Handle := i.refs.filter gap.removed.contains

/-- The target of the control transfer `h` without some references, and the links that replace them. -/
def moveRefs (successor : Option Handle) (h : Handle) : List Handle → Target → Target × List Link
  | [], t => (t, [])
  | s :: ss, t =>
    let r := moveRefs successor h ss (t.retarget s successor)
    (r.1, (if successor.isNone then [linkFor h t s] else []) ++ r.2)

/-- The target of a control transfer after a removal. -/
def newTarget (gap : Gap) (orphans : Table Handle String) (h : Handle) (i : Instruction) : Target :=
  match orphanOf orphans i with
  | some _ => .unresolved
  | none => (moveRefs gap.successor h (staleRefs gap i) i.target).1

/-- The links that replace the references of a control transfer into the gap. -/
def newLinks (gap : Gap) (orphans : Table Handle String) (h : Handle) (i : Instruction) : List Link :=
  match orphanOf orphans i with
  | some _ => []
  | none => (moveRefs gap.successor h (staleRefs gap i) i.target).2

section MoveReferences

variable {g : Generator} {gap : Gap} {orphans : Table Handle String} {h x : Handle} {i : Instruction}

lemma target?_eq (hi : g.code.instruction? h = some i) (hr : i.opcode.role ≠ .plain) :
    g.code.target? h = some i.target := by
  simp [target?, hi, Instruction.target?, hasTarget_eq_true.2 hr]

/-- A change of the target of `h`, with more links and perhaps one more waiting call. -/
structure Moved (h : Handle) (t : Target) (links : List Link) (g g' : Generator) : Prop where
  context : g'.context = g.context
  entries : g'.entries = g.entries
  code : g'.code = g.code.setTarget h t
  pending : g'.pending = g.pending ++ links

lemma setTarget_setTarget (m : CodeMap) (h : Handle) (t t' : Target) :
    (m.setTarget h t).setTarget h t' = m.setTarget h t' := by
  have harena : (m.setTarget h t).arena.modify h (fun i => { i with target := t' })
      = m.arena.modify h fun i => { i with target := t' } := by
    apply Array.ext
    · simp [CodeMap.setTarget]
    · intro j h1 h2
      simp only [CodeMap.setTarget, Array.getElem_modify]
      split <;> rfl
  simp only [CodeMap.setTarget] at harena ⊢
  rw [harena]

lemma setTarget_self {m : CodeMap} (hi : m.instruction? h = some i) : m.setTarget h i.target = m := by
  have harena : m.arena.modify h (fun j => { j with target := i.target }) = m.arena := by
    apply Array.ext
    · simp
    · intro j h1 h2
      rw [Array.getElem_modify]
      split
      · next e =>
        subst e
        rw [instruction?, Array.getElem?_eq_getElem h2, some.injEq] at hi
        rw [hi]
      · rfl
  rw [CodeMap.setTarget, harena]

lemma foldl_moveReference (ss : List Handle) (hi : g.code.instruction? h = some i) (hr : i.opcode.role ≠ .plain) :
    let r := moveRefs gap.successor h ss i.target
    Moved h r.1 r.2 g (ss.foldl (fun g s => g.moveReference gap h s) g) ∧
      (ss.foldl (fun g s => g.moveReference gap h s) g).waiting = g.waiting := by
  induction ss generalizing g i with
  | nil => exact ⟨⟨rfl, rfl, (setTarget_self hi).symm, by simp [moveRefs]⟩, rfl⟩
  | cons s ss ih =>
    have hi' : (g.moveReference gap h s).code.instruction? h =
        some { i with target := i.target.retarget s gap.successor } := by
      have hcode : (g.moveReference gap h s).code = g.code.setTarget h (i.target.retarget s gap.successor) := by
        simp only [moveReference, target?_eq hi hr]
        split <;> rfl
      rw [hcode, instruction?_setTarget, if_pos rfl, hi, map_some]
    obtain ⟨hm, hw⟩ := ih hi' hr
    refine ⟨⟨?_, ?_, ?_, ?_⟩, ?_⟩
    · rw [foldl_cons, hm.context]
      simp only [moveReference, target?_eq hi hr]
      split <;> rfl
    · rw [foldl_cons, hm.entries]
      simp only [moveReference, target?_eq hi hr]
      split <;> rfl
    · rw [foldl_cons, hm.code]
      simp only [moveReference, target?_eq hi hr, moveRefs]
      split <;> exact setTarget_setTarget _ _ _ _
    · rw [foldl_cons, hm.pending]
      simp only [moveReference, target?_eq hi hr, moveRefs]
      by_cases hs : gap.successor.isNone = true
      · simp [hs, defer]
      · simp [hs]
    · rw [foldl_cons, hw]
      simp only [moveReference, target?_eq hi hr]
      split <;> rfl

lemma orphanedCall?_eq (hi : g.code.instruction? h = some i) : g.orphanedCall? orphans h = orphanOf orphans i := by
  rw [orphanedCall?, hi]
  rfl

/-- What relinking does to one control transfer. -/
lemma moveReferences_moved (hi : g.code.instruction? h = some i) (hr : i.opcode.role ≠ .plain) :
    Moved h (newTarget gap orphans h i) (newLinks gap orphans h i) g (g.moveReferences gap orphans h) ∧
      ∀ m, (g.moveReferences gap orphans h).waitingOf m =
        g.waitingOf m ++ (if orphanOf orphans i = some m then [h] else []) := by
  simp only [moveReferences, orphanedCall?_eq hi, newTarget, newLinks]
  cases ho : orphanOf orphans i with
  | some name =>
    refine ⟨⟨rfl, rfl, rfl, by simp [await]⟩, fun m => ?_⟩
    simp only [waitingOf, await, Table.get?_insert]
    by_cases hm : m = name
    · simp [hm]
    · simp [hm, Ne.symm hm]
  | none =>
    have hstale : (((g.code.target? h).map Target.handles).getD []).filter gap.removed.contains = staleRefs gap i := by
      rw [staleRefs, target?, hi, bind_some]
      rfl
    obtain ⟨hm, hw⟩ := @foldl_moveReference g gap h i (staleRefs gap i) hi hr
    simp only [hstale]
    refine ⟨hm, fun m => ?_⟩
    rw [waitingOf, hw]
    simp [waitingOf]

end MoveReferences

/-! ### Targets -/

lemma retarget_retarget {t : Target} {r : Handle} {new : Option Handle} (hne : new ≠ some r) :
    (t.retarget r new).retarget r new = t.retarget r new := by
  have hswap : ∀ slot, Target.swap r new (Target.swap r new slot) = Target.swap r new slot := fun slot => by
    by_cases h : slot = some r
    · simp [Target.swap, h, hne]
    · simp [Target.swap, h]
  cases t with
  | code d =>
    by_cases hd : d = r
    · subst hd
      cases new with
      | none => simp [Target.retarget]
      | some s =>
        have hs : s ≠ d := fun e => hne (by rw [e])
        simp [Target.retarget, hs]
    · simp [Target.retarget, hd]
  | handlers e f => simp only [Target.retarget, hswap]
  | _ => rfl

/-- Replacing references to one instruction. -/
lemma moveRefs_eq {successor : Option Handle} {h r : Handle} {ss : List Handle} {t : Target}
    (hss : ∀ s ∈ ss, s = r) (hne : successor ≠ some r) :
    (moveRefs successor h ss t).1 = if ss = [] then t else t.retarget r successor := by
  induction ss generalizing t with
  | nil => rfl
  | cons s ss ih =>
    obtain rfl := hss s mem_cons_self
    simp only [moveRefs, ih fun x hx => hss x (mem_cons_of_mem _ hx), reduceCtorEq, if_false]
    split
    · rfl
    · exact retarget_retarget hne

/-! ### All control transfers -/

/-- The links that replace the references of the instruction `h` into the gap. -/
def linksFrom (g : Generator) (gap : Gap) (orphans : Table Handle String) (h : Handle) : List Link :=
  ((g.code.instruction? h).map (newLinks gap orphans h)).getD []

/-- Whether the instruction `h` is a call that waits for `m` again. -/
def waitsAgain (g : Generator) (orphans : Table Handle String) (m : String) (h : Handle) : Bool :=
  (g.code.instruction? h).bind (orphanOf orphans) == some m

/-- What relinking does to the control transfers `hs`. -/
structure Relinked (gap : Gap) (orphans : Table Handle String) (hs : List Handle) (g g' : Generator) : Prop where
  context : g'.context = g.context
  entries : g'.entries = g.entries
  live : g'.code.live = g.code.live
  next : g'.code.nextHandle = g.code.nextHandle
  shape : g'.code.shape? = g.code.shape?
  laid : g.code.Laid → g'.code.Laid
  mem : ∀ x ∈ hs, ∀ i, g.code.instruction? x = some i →
    g'.code.instruction? x = some { i with target := newTarget gap orphans x i }
  other : ∀ x, x ∉ hs → g'.code.instruction? x = g.code.instruction? x
  pending : g'.pending = g.pending ++ hs.flatMap (g.linksFrom gap orphans)
  waitingOf : ∀ m, g'.waitingOf m = g.waitingOf m ++ hs.filter (g.waitsAgain orphans m)

lemma foldl_moveReferences {gap : Gap} {orphans : Table Handle String} (hs : List Handle) (g : Generator)
    (hnd : hs.Nodup) (hrole : ∀ x ∈ hs, ∃ i, g.code.instruction? x = some i ∧ i.opcode.role ≠ .plain) :
    Relinked gap orphans hs g (hs.foldl (fun g x => g.moveReferences gap orphans x) g) := by
  induction hs generalizing g with
  | nil => exact ⟨rfl, rfl, rfl, rfl, rfl, id, fun _ hx => (by cases hx), fun _ _ => rfl,
      by simp, by simp⟩
  | cons h hs ih =>
    rw [nodup_cons] at hnd
    obtain ⟨i, hi, hr⟩ := hrole h mem_cons_self
    obtain ⟨hm, hw⟩ := @moveReferences_moved g gap orphans h i hi hr
    have hne : ∀ x ∈ hs, x ≠ h := fun x hx e => hnd.1 (e ▸ hx)
    have hother : ∀ x, x ≠ h → (g.moveReferences gap orphans h).code.instruction? x = g.code.instruction? x :=
      fun x hx => by rw [hm.code, instruction?_setTarget, if_neg hx]
    have ih := ih (g.moveReferences gap orphans h) hnd.2 fun x hx => by
      rw [hother x (hne x hx)]
      exact hrole x (mem_cons_of_mem _ hx)
    rw [foldl_cons]
    refine ⟨ih.context.trans hm.context, ih.entries.trans hm.entries, ?_, ?_, ?_, fun hl => ih.laid ?_, ?_, ?_, ?_, ?_⟩
    · rw [ih.live, hm.code, live_setTarget]
    · rw [ih.next, hm.code, nextHandle_setTarget]
    · rw [ih.shape, hm.code, shape?_setTarget]
    · rw [hm.code]
      exact hl.setTarget _ _
    · intro x hx j hj
      rcases mem_cons.1 hx with rfl | hx
      · rw [ih.other x hnd.1, hm.code, instruction?_setTarget, if_pos rfl, hj, map_some]
        rw [hi, some.injEq] at hj
        rw [hj]
      · exact ih.mem x hx j (by rw [hother x (hne x hx)]; exact hj)
    · intro x hx
      rw [mem_cons, not_or] at hx
      rw [ih.other x hx.2, hother x hx.1]
    · rw [ih.pending, hm.pending, flatMap_cons, append_assoc]
      congr 2
      · rw [linksFrom, hi, map_some, getD_some]
      · rw [flatMap_def, flatMap_def]
        refine congrArg flatten (map_congr_left fun x hx => ?_)
        rw [linksFrom, linksFrom, hother x (hne x hx)]
    · intro m
      have hcongr : hs.filter ((g.moveReferences gap orphans h).waitsAgain orphans m) =
          hs.filter (g.waitsAgain orphans m) := filter_congr fun x hx => by
        rw [waitsAgain, waitsAgain, hother x (hne x hx)]
      rw [ih.waitingOf m, hw m, hcongr, append_assoc, filter_cons]
      congr 1
      have hself : g.waitsAgain orphans m h = (orphanOf orphans i == some m) := by
        rw [waitsAgain, hi, bind_some]
      rw [hself]
      by_cases ho : orphanOf orphans i = some m
      · simp [ho]
      · simp [ho]

/-! ### The whole removal -/

/-- The links to the entry of the open method, if a removal took it away and nothing follows. -/
def reopened (g : Generator) (gap : Gap) : List Link :=
  match g.frame with
  | some frame =>
    if gap.successor.isNone && (gap.orphans g).entries.any fun e => e.2 == frame.name then [.entry frame.name] else []
  | none => []

/-- The generator after a removal, before references are mended. -/
def cut (g : Generator) (gap : Gap) : Generator :=
  { g with
    pending := (g.pending.filter fun link => link.source?.all fun h => !gap.removed.contains h) ++ g.reopened gap
    waiting := g.waiting.map fun calls => calls.filter fun h => !gap.removed.contains h
    entries := g.entries.filterMap fun _ h => if gap.removed.contains h then gap.newEntry g else some h }

lemma cut_eq (g : Generator) (gap : Gap) :
    ((g.forget gap).moveEntries gap).reopenEntry gap (gap.orphans (g.forget gap)) = g.cut gap := by
  have horphans : gap.orphans (g.forget gap) = gap.orphans g := rfl
  have hframe : ((g.forget gap).moveEntries gap).frame = g.frame := rfl
  rw [horphans]
  unfold reopenEntry cut reopened
  rw [hframe]
  cases hfr : g.frame with
  | none => simp [moveEntries, forget, Gap.newEntry, hfr]
  | some frame =>
    simp only
    split
    · simp [defer, moveEntries, forget, Gap.newEntry, hfr]
    · simp [moveEntries, forget, Gap.newEntry, hfr]

lemma relink_relinked {g : Generator} {gap : Gap} (hl : g.code.Laid) :
    Relinked gap (gap.orphans g) g.code.linked (g.cut gap) (g.relink gap) := by
  have heq : g.relink gap =
      g.code.linked.foldl (fun g' x => g'.moveReferences gap (gap.orphans g) x) (g.cut gap) := by
    rw [← cut_eq]
    have hcode : (((g.forget gap).moveEntries gap).reopenEntry gap (gap.orphans (g.forget gap))).code = g.code := by
      rw [cut_eq]
      rfl
    simp only [relink, hcode]
    rfl
  rw [heq]
  refine foldl_moveReferences _ _ (nodup_linked _) fun x hx => ?_
  obtain ⟨-, i, hi, hr⟩ := (mem_linked hl).1 hx
  exact ⟨i, hi, hr⟩

lemma removed_of_orphan {g : Generator} {gap : Gap} {d : Handle} {m : String}
    (h : (gap.orphans g).get? d = some m) : gap.removed.contains d = true := by
  unfold Gap.orphans at h
  split at h
  · cases h
  · have hm := Table.get?_ofList_eq_some h
    simp only [List.mem_map, mem_filter, Prod.mk.injEq] at hm
    obtain ⟨e, ⟨-, hc⟩, rfl, -⟩ := hm
    exact hc

/-- A call that refers to nothing in the gap does not wait again. -/
lemma orphanOf_of_kept {g : Generator} {gap : Gap} {i : Instruction}
    (hrefs : ∀ d ∈ i.refs, gap.removed.contains d = false) : orphanOf (gap.orphans g) i = none := by
  unfold orphanOf
  split
  · next d hcall ht =>
    rw [isCall_eq_true] at hcall
    rw [Instruction.refs_eq (by simp [hcall]), ht] at hrefs
    by_contra hsome
    obtain ⟨m, hm⟩ := ne_none_iff_exists'.1 hsome
    have hgone := removed_of_orphan hm
    rw [hrefs d mem_cons_self] at hgone
    cases hgone
  · rfl

/-- An instruction that refers to nothing in the gap keeps its target. -/
lemma new_of_kept {g : Generator} {gap : Gap} {h : Handle} {i : Instruction}
    (hrefs : ∀ d ∈ i.refs, gap.removed.contains d = false) :
    newTarget gap (gap.orphans g) h i = i.target ∧ newLinks gap (gap.orphans g) h i = [] := by
  have hstale : staleRefs gap i = [] := filter_eq_nil_iff.2 fun d hd => by
    rw [hrefs d hd]
    exact Bool.false_ne_true
  rw [newTarget, newLinks, orphanOf_of_kept hrefs, hstale]
  exact ⟨rfl, rfl⟩

/-! ### Removing a block -/

/-- A block is removed, and what referred to it is relinked to the instruction behind it. -/
lemma removeSpan_eq {g : Generator} {pre mid post : List Handle} (hl : g.code.Laid)
    (hs : g.code.live = pre ++ (mid ++ post)) (hne : mid ≠ []) : ∃ e : TraceEvent,
      g.removeSpan (span g.code.arena pre) (span g.code.arena pre + span g.code.arena mid - 1) =
        ({ g with code := .layOut g.code.arena (pre ++ post).toArray }.note e).relink ⟨.ofList mid, post.head?⟩ := by
  have hpos : 0 < span g.code.arena mid := by
    obtain ⟨h, mid, rfl⟩ := exists_cons_of_ne_nil hne
    have := sizeOf_pos (hl.bound h (by rw [hs]; simp))
    rw [span_cons]
    omega
  have hnext : g.code.atStart? (span g.code.arena pre + span g.code.arena mid - 1 + 1) = post.head? := by
    have haddr : span g.code.arena pre + span g.code.arena mid - 1 + 1 =
        span g.code.arena (pre ++ mid) := by
      rw [span_append]
      omega
    rw [← append_assoc] at hs
    rw [haddr]
    cases post with
    | nil =>
      rw [append_nil] at hs
      rw [← hs, ← hl.size]
      exact hl.atStart?_size
    | cons x post => exact hl.atStart?_split hs
  rw [removeSpan, hl.removeSpan_block hs hne, hnext]
  simp only [List.isEmpty_iff, if_neg hne]
  exact ⟨_, rfl⟩

end NeoScript.Generator
