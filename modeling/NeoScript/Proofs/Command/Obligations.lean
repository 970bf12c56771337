import NeoScript.Proofs.Command.Linear
import NeoScript.Proofs.Generator.Obligations

/-!
# Commands keep promises apart

Each command that opens, closes or leaves a construct hands jumps over: from the construct to a pending link, or to
another construct. So in every state of a method under way each open jump is owed a destination once.
-/

namespace NeoScript

open Generator List Option CodeMap Link

variable {b : Generator} {f? : Option String} {log : List (Handle × String)} {X : Handle → Prop}
  {new : List Handle} {extra extra' : List Link} {g g' : Generator}

namespace Generator

namespace Owing

/-! ### Plain emission -/

section

variable (ho : Owing extra g)
include ho

lemma perm (hp : extra'.Perm extra) : Owing extra' g :=
  ho.fewer rfl rfl fun l _ => by
    apply Nat.le_of_eq
    rw [count_append, count_append, hp.count_eq]

lemma emit (o : Opcode) : Owing extra (g.emit o) := ho.append _

lemma op (o : Opcode) (pops : Nat) (result : Option ValueType) : Owing extra (g.op o pops result) := (ho.emit o).still rfl

lemma pushType (t : ValueType) : Owing extra (g.pushType t) := ho.still rfl

lemma appendAll (is : List Instruction) : Owing extra (g.appendAll is) := by
  induction is generalizing g with
  | nil => exact ho
  | cons i is ih => exact ih (ho.append i)

lemma pushIndex (n : Nat) : Owing extra (g.pushIndex n) := (ho.appendAll _).still rfl

lemma dup : Owing extra g.dup := (ho.emit .dup).still rfl

lemma dropN (count : Nat) : Owing extra (g.dropN count) := by
  induction count generalizing g with
  | zero => exact ho
  | succ count ih => exact ih (ho.op .drop 1 none)

/-! ### Constructs -/

/-- Taking a construct off the open ones, or putting one on them. -/
lemma reopen (hc : g'.code = g.code) (hp : g'.pending = g.pending) (hw : g'.waiting = g.waiting)
    (hcount : ∀ l, (extra' ++ (g'.held.map jump ++ g'.tries.flatMap OpenTry.owed)).count l ≤
      (extra ++ (g.held.map jump ++ g.tries.flatMap OpenTry.owed)).count l) : Owing extra' g' := by
  refine ho.fewer hc hw fun l _ => ?_
  have hl := hcount l
  simp only [owed, hp, count_append] at hl ⊢
  omega

lemma popBranch {br : OpenBranch} {outer : List OpenBranch} (hb : g.branches = br :: outer) :
    Owing (.jump br.held :: extra) { g with branches := outer } := by
  refine ho.reopen rfl rfl rfl fun l => ?_
  simp only [held, hb, map_cons, map_append, cons_append, count_append, count_cons]
  omega

end

lemma openBranch {e : OpenBranch} (ho : Owing (.jump e.held :: extra) g) :
    Owing extra { g with branches := e :: g.branches } := by
  refine ho.reopen rfl rfl rfl fun l => ?_
  simp only [held, map_cons, map_append, cons_append, count_append, count_cons]
  omega

lemma popLoop {loop : OpenLoop} {outer : List OpenLoop} (ho : Owing extra g) (hl : g.loops = loop :: outer) :
    Owing (loop.held.map .jump ++ extra) { g with loops := outer } := by
  refine ho.reopen rfl rfl rfl fun l => ?_
  simp only [held, hl, flatMap_cons, map_append, count_append]
  omega

lemma popGuard {o : Option Handle} {outer : List (Option Handle)} (ho : Owing extra g)
    (hb : g.elseGuards = o :: outer) : Owing (o.toList.map .jump ++ extra) { g with elseGuards := outer } := by
  refine ho.reopen rfl rfl rfl fun l => ?_
  cases o with
  | none => simp [held, hb]
  | some jump =>
    simp only [held, hb, toList_some, map_cons, map_nil, map_append, count_append,
      filterMap_cons_some (f := id) rfl, count_cons, count_nil]
    omega

lemma openGuard {o : Option Handle} (ho : Owing (o.toList.map .jump ++ extra) g) :
    Owing extra { g with elseGuards := o :: g.elseGuards } := by
  refine ho.reopen rfl rfl rfl fun l => ?_
  cases o with
  | none => simp [held]
  | some jump =>
    simp only [held, toList_some, map_cons, map_nil, map_append, count_append,
      filterMap_cons_some (f := id) rfl, count_cons, count_nil]
    omega

lemma popTry {t : OpenTry} {outer : List OpenTry} (ho : Owing extra g) (hb : g.tries = t :: outer) :
    Owing (t.leaves.map .jump ++ (t.owed ++ extra)) { g with tries := outer } := by
  refine ho.reopen rfl rfl rfl fun l => ?_
  simp only [held, hb, flatMap_cons, map_append, count_append]
  omega

lemma openTry {t : OpenTry} (ho : Owing (t.leaves.map .jump ++ (t.owed ++ extra)) g) :
    Owing extra { g with tries := t :: g.tries } := by
  refine ho.reopen rfl rfl rfl fun l => ?_
  simp only [held, flatMap_cons, map_append, count_append]
  omega

/-- Owing less of what the operation under way took over. -/
lemma forget (ho : Owing (extra' ++ extra) g) : Owing extra g := by
  refine ho.fewer rfl rfl fun l _ => ?_
  simp only [count_append]
  omega

/-- A jump that nobody links any more. -/
lemma unlink (ho : Owing extra g) {j : Handle} (hj : .jump j ∈ g.pending) :
    Owing (.jump j :: extra) { g with pending := g.pending.filter fun link => decide (link ≠ .jump j) } := by
  refine ho.fewer rfl rfl fun l hl => ?_
  have honce := ho.once l hl
  have howed : ({ g with pending := g.pending.filter fun link => decide (link ≠ .jump j) } : Generator).owed =
      (g.pending.filter fun link => decide (link ≠ .jump j)) ++ (g.held.map .jump ++ g.tries.flatMap OpenTry.owed) := rfl
  rw [howed]
  simp only [owed, cons_append, count_cons, count_append] at honce ⊢
  by_cases he : l = .jump j
  · subst he
    have hpos := count_pos_iff.2 hj
    have hzero : (g.pending.filter fun link => decide (link ≠ .jump j)).count (.jump j) = 0 :=
      count_eq_zero.2 (by simp)
    simp only [beq_self_eq_true, if_true]
    omega
  · have hle := (filter_sublist (p := fun link => decide (link ≠ .jump j)) (l := g.pending)).count_le l
    have hne : (jump j == l) = false := by simpa using fun e => he e.symm
    simp only [hne, Bool.false_eq_true, if_false]
    omega

lemma moveTest (ho : Owing extra g) (first last : Handle) : Owing extra (g.moveTest first last) := by
  obtain ⟨t, heq⟩ := Sound.moveTest_eq g first last
  have hinst := Sound.instruction?_moveTest g first last
  have howed : (g.moveTest first last).owed = g.owed := by rw [heq]; rfl
  refine ⟨by rw [howed]; exact ho.once, fun l hl => ?_, fun m s hs => ?_⟩
  · rw [howed] at hl
    exact (ho.unmet l hl).congr fun s _ => congrFun hinst s
  · have hrole : (g.moveTest first last).code.role? s = g.code.role? s :=
      role?_congr (by rw [shape?, hinst, shape?])
    rw [hrole]
    exact ho.calls m s (by rw [heq] at hs; exact hs)

lemma closeTest (ho : Owing extra g) (test bodyJump : Handle) : Owing extra (g.closeTest test bodyJump) := by
  unfold Generator.closeTest
  split_ifs with hmem
  · exact (ho.unlink (contains_iff_mem.1 hmem)).setTarget
  · exact (ho.resolveAll test).moveTest test bodyJump

lemma finishLoop {loop : OpenLoop} (ho : Owing (loop.breaks.map fun e => .jump e.jump) g)
    (hs : Sound b f? log X new g) (hl : LoopSound new g.code loop) (hasElse : Bool) :
    Owing [] (g.finishLoop loop hasElse) := by
  have hexits : (loop.breaks.map Break.jump).map jump = loop.breaks.map fun e => .jump e.jump := by
    rw [List.map_map]
    rfl
  have ho0 : Owing ((loop.breaks.map Break.jump).map jump ++ []) (g.popScope.restoreStack loop.stack) := by
    rw [hexits, append_nil]
    exact ho.still rfl
  unfold Generator.finishLoop
  dsimp only
  split_ifs with htest helse
  · have hlink := ((ho0.dropN loop.kind.kept).op (.pushBool false) 0 (some .bool)).linkAll
    generalize Generator.linkAll _ (loop.breaks.map Break.jump) = g1 at hlink
    have hguard := ((hlink.emitOpen (o := .jump .ifTrue false) rfl).openGuard (o := some g1.next))
    exact hguard.still rfl
  all_goals
    have hflags := ho0.removeFlags (hs.still rfl) hl.start.1 hl.start.2 hl.flags
    have hlink := (hflags.dropN loop.kind.kept).linkAll
    generalize Generator.linkAll _ (loop.breaks.map Break.jump) = g1 at hlink
  · exact (hlink.openGuard (o := none)).still rfl
  · exact hlink.still rfl

lemma leaveTries (ho : Owing extra g) (levels : Nat) : Owing extra (g.leaveTries levels) := by
  induction levels generalizing g with
  | zero => exact ho
  | succ levels ih => exact ih (ho.emitOpen (o := .tryLeave false) rfl).linkNext

lemma exitJump (ho : Owing extra g) (levels : Nat) :
    Owing (.jump (g.leaveTries (levels - 1)).next :: extra) (g.exitJump levels).1 := by
  refine (ho.leaveTries (levels - 1)).emitOpen ?_
  split_ifs <;> rfl

lemma modifyLoop {loop : OpenLoop} {outer : List OpenLoop} {f : OpenLoop → OpenLoop} (ho : Owing extra g)
    (hl : g.loops = loop :: outer) (hcount : ∀ l : Link, (extra' ++ (f loop).held.map jump).count l ≤
      (extra ++ loop.held.map jump).count l) : Owing extra' (g.modifyLoop f) := by
  rw [show g.modifyLoop f = { g with loops := f loop :: outer } by rw [Generator.modifyLoop, hl]]
  refine ho.reopen rfl rfl rfl fun l => ?_
  have hle := hcount l
  simp only [held, hl, flatMap_cons, map_append, count_append] at hle ⊢
  omega

end Owing

/-! ### Conditional statements -/

lemma owing_beginIf (ho : Owing [] g) : Owing [] g.beginIf := by
  have hopen := (ho.emitOpen (o := .jump .ifFalse false) rfl).openBranch (e := { jump := g.next })
  exact hopen.still rfl

lemma ends_owing_beginElse (ho : Owing [] g) : Ends beginElse g (fun _ => Owing []) fun _ => True := by
  refine .beginElse trivial fun br outer hb hother => ?_
  have hheld : br.held = br.jump := by simp [OpenBranch.held, hother]
  have hpop := ho.popBranch hb
  rw [hheld] at hpop
  have hjump := (hpop.emitOpen (o := .jump .always false) rfl).perm (.swap _ _ [])
  have hopen := hjump.linkNext.openBranch (e := { br with other := some (g.next, g.stack.items) })
  exact hopen.still rfl

lemma ends_owing_endIf (ho : Owing [] g) : Ends endIf g (fun _ => Owing []) fun _ => True :=
  .endIf trivial fun _ _ hb => (ho.popBranch hb).linkNext.still rfl

/-! ### Loops -/

lemma loops_dropN (g : Generator) (count : Nat) : (g.dropN count).loops = g.loops := by
  induction count generalizing g with
  | zero => rfl
  | succ count ih =>
    rw [dropN, ih]
    change (g.append { opcode := .drop }).loops = g.loops
    exact loops_of_context (context_append _ _)

lemma ends_owing_continueLoop (ho : Owing [] g) : Ends continueLoop g (fun _ => Owing []) fun _ => True := by
  refine (ends_innerLoop _ trivial).bind ?_
  rintro ⟨loop, levels⟩ g1 ⟨rfl, outer, hl, -⟩
  refine .modify ((ho.exitJump levels).modifyLoop ((loops_of_context (context_exitJump _ _)).trans hl) fun l => ?_)
  simp only [OpenLoop.held, map_append, map_cons, map_nil, count_append, count_cons,
    count_nil]
  omega

lemma ends_owing_breakLoop (ho : Owing [] g) : Ends breakLoop g (fun _ => Owing []) fun _ => True := by
  refine (ends_innerLoop _ trivial).bind ?_
  rintro ⟨loop, levels⟩ g1 ⟨rfl, outer, hl, -⟩
  have hexit := ((ho.dropN loop.kind.kept).op (.pushBool true) 0 (some .bool)).exitJump levels
  have hloops : (((g1.dropN loop.kind.kept).op (.pushBool true) 0 (some .bool)).exitJump levels).1.loops =
      loop :: outer := by
    refine (loops_of_context (context_exitJump _ _)).trans ?_
    exact (loops_of_context (context_append _ _)).trans ((loops_dropN _ _).trans hl)
  refine .modify (Owing.modifyLoop (hexit.still rfl) hloops fun l => ?_)
  simp only [OpenLoop.held, map_append, map_cons, map_nil, count_append, count_cons,
    count_nil]
  omega

lemma ends_owing_endLoopElse (ho : Owing [] g) : Ends endLoopElse g (fun _ => Owing []) fun _ => True := by
  refine .get ?_
  cases hb : g.elseGuards with
  | nil => exact .throw trivial
  | cons o outer =>
    have hpop := ho.popGuard hb
    cases o with
    | none => exact .modify hpop
    | some jump => exact .modify hpop.linkNext

lemma owing_openLoop {j : Handle} {k : LoopKind} (ho : Owing ((⟨k, j, [], [], 0, []⟩ : OpenLoop).held.map .jump) g) :
    Owing [] (g.openLoop k j) := by
  refine ho.reopen rfl rfl rfl fun l => ?_
  simp only [openLoop, pushScope, held, flatMap_cons, OpenLoop.held, map_append,
    count_append, map_nil, count_nil]
  omega

lemma owing_beginWhile (ho : Owing [] g) : Owing [] g.beginWhile :=
  owing_openLoop (k := .conditional none) (ho.emitOpen (o := .jump .always false) rfl).linkNext

lemma ends_owing_beginWhileBody (ho : Owing [] g) : Ends beginWhileBody g (fun _ => Owing []) fun _ => True := by
  refine .get ?_
  split
  · next hkind =>
    obtain ⟨loop, hhead, hk⟩ := map_eq_some_iff.1 hkind
    obtain ⟨outer, hl⟩ := head?_eq_some_iff.1 hhead
    have hlink := (ho.emitOpen (o := .jump .ifTrue false) rfl).linkNext
    have hloops : ((g.emitOpen (.jump .ifTrue false)).linkNext g.next).loops = loop :: outer :=
      (loops_of_context (context_append _ _)).trans hl
    refine .modify (Owing.modifyLoop (hlink.still rfl) hloops fun l => ?_)
    simp [OpenLoop.held, hk]
  · exact .throw trivial

lemma ends_owing_endWhile (hasElse : Bool) (h : Ready b f? log g) (ho : Owing [] g) :
    Ends (endWhile hasElse) g (fun _ => Owing []) fun _ => True := by
  refine .endWhile trivial fun loop outer j test hl hk ht => ?_
  obtain ⟨hf, new, hs⟩ := h
  obtain ⟨new1, hs1, hg1⟩ := hs.joinTest hl hk ht
  have hpop := (ho.popLoop hl).closeTest test j
  have hheld : loop.held.map jump ++ [] =
      loop.continues.map .jump ++ loop.breaks.map fun e => .jump e.jump := by
    simp [OpenLoop.held, hk, Function.comp_def]
  rw [hheld] at hpop
  exact (hpop.pointAll test).finishLoop hs1 (hs.left_grows hl hg1).1 hasElse

lemma owing_beginIterated (ho : Owing [] g) (item : ValueType) : Owing [] (g.beginIterated item) := by
  have hjump := (ho.emitOpen (o := .jump .always false) rfl).emit .dup
  unfold beginIterated
  refine Owing.pushType (owing_openLoop ?_) item
  exact (hjump.append ⟨.syscall, Service.iteratorValue.operand, .unresolved⟩).still rfl

lemma owing_beginIndexed (ho : Owing [] g) (collection : ValueType) : Owing [] (g.beginIndexed collection) := by
  have hjump := (ho.op (.push 0) 0 (some .nonNegInt)).emitOpen (o := .jump .always false) rfl
  unfold beginIndexed
  refine Owing.pushType (owing_openLoop ?_) _
  exact hjump.emitSnippet _

lemma ends_owing_beginFor (ho : Owing [] g) : Ends beginFor g (fun _ => Owing []) fun _ => True := by
  refine .get ?_
  split
  · exact .modify (owing_beginIndexed (ho.op .keys 1 _) _)
  · exact .modify (owing_beginIterated ho _)
  · split_ifs
    · exact .modify (owing_beginIndexed ho _)
    · exact .throw trivial

lemma Advancing.owing {kind : LoopKind} {body s : Handle} {advance : Generator → Handle → Generator}
    (ha : Advancing kind body advance) (ho : Owing (.jump s :: extra) g) : Owing extra (advance g s) := by
  cases ha with
  | index =>
    have hpick := ((ho.op .inc 1 (some .nonNegInt)).linkNext.dup.pushIndex 2).op .pick 1 none
    exact ((hpick.pushType .any).op .size 1 (some .nonNegInt)).op .lt 2 (some .bool)
  | iterator => exact (ho.linkNext.dup.append ⟨.syscall, Service.iteratorNext.operand, .unresolved⟩).still rfl

/-- Advancing a loop over a collection that was taken off the open ones. -/
lemma owing_advanceLoop {loop : OpenLoop} {body : Handle} {advance : Generator → Handle → Generator}
    (ho : Owing (loop.held.map .jump) g) (ha : Advancing loop.kind body advance) :
    Owing (loop.breaks.map fun e => .jump e.jump) (g.advanceLoop loop body advance) := by
  have hheld : (loop.continues.map jump ++
      (.jump loop.startJump :: loop.breaks.map fun e => jump e.jump)).Perm (loop.held.map jump) := by
    rcases ha.kind_eq with hk | hk <;>
    · simp only [OpenLoop.held, hk, map_append, map_cons, map_nil, List.map_map, Function.comp_def,
        cons_append]
      exact perm_middle
  have hlink := ((ho.still rfl : Owing _ (g.restoreStack loop.stack)).perm hheld).linkAll
  exact ((ha.owing hlink).append _).still rfl

lemma ends_owing_endFor (hasElse : Bool) (h : Ready b f? log g) (ho : Owing [] g) :
    Ends (endFor hasElse) g (fun _ => Owing []) fun _ => True := by
  refine .endFor trivial fun loop outer body advance hl ha => ?_
  obtain ⟨hf, new, hs⟩ := h
  obtain ⟨new1, hs1, hg1⟩ := hs.joinAdvance hf hl ha
  have hpop := ho.popLoop hl
  rw [append_nil] at hpop
  exact (owing_advanceLoop hpop ha).finishLoop hs1 (hs.left_grows hl hg1).1 hasElse

/-! ### Protected blocks -/

lemma owing_beginTry (ho : Owing [] g) : Owing [] g.beginTry := by
  have hopen := ho.emitEnter.openTry (t := { enter := g.next, stack := (g.emitTarget (.tryEnter false)
    (.handlers none none)).stack.items })
  exact hopen.still rfl

/-- Leaving a part of a protected block that was taken off the open ones. -/
lemma owing_leavePart {t : OpenTry} {outer : List OpenTry} (ho : Owing [] g) (hb : g.tries = t :: outer) :
    Owing ((t.leaves ++ [g.next]).map .jump ++ t.owed) ({ g with tries := outer }.emitOpen (.tryLeave false)) := by
  have hleave := (ho.popTry hb).emitOpen (o := .tryLeave false) rfl
  refine hleave.perm ?_
  rw [map_append, append_nil, append_assoc]
  exact perm_middle

lemma owing_enterHandler {t : OpenTry} {outer : List OpenTry} (ho : Owing [] g) (hb : g.tries = t :: outer)
    (hstage : t.stage = .body) : Owing [] ({ g with tries := outer }.enterHandler t) := by
  have hleave := owing_leavePart ho hb
  rw [OpenTry.owed, hstage] at hleave
  have hdefer := (hleave.perm perm_middle.symm).defer
  have hopen := hdefer.openTry (t := { t with leaves := t.leaves ++ [g.next], stage := .handler })
  exact hopen.still rfl

lemma ends_owing_beginHandler (name : Option String) (h : Ready b f? log g) (ho : Owing [] g) :
    Ends (beginHandler name) g (fun _ => Owing []) fun _ => True := by
  rw [beginHandler_eq]
  refine (ends_popTry _ trivial).bind ?_
  rintro t _ ⟨hstage, outer, hb, rfl⟩
  have h1 := ready_enterHandler h hb
  have hopen := owing_enterHandler ho hb (mem_singleton.1 hstage)
  refine .modify_bind ?_
  cases name with
  | some name => exact h1.straight (straight_store (P := fun _ => True) name) kept_owing hopen
  | none => exact .modify (hopen.op .drop 1 none)

lemma ends_owing_endTry (hasFinalizer : Bool) (ho : Owing [] g) :
    Ends (endTry hasFinalizer) g (fun _ => Owing []) fun _ => True := by
  refine (ends_popTry _ trivial).bind ?_
  rintro t _ ⟨hstage, outer, hb, rfl⟩
  have hleave := owing_leavePart ho hb
  refine .modify ?_
  cases hasFinalizer with
  | false =>
    have hforget := (hleave.perm perm_append_comm).forget
    rw [← append_nil (List.map _ _)] at hforget
    exact (hforget.still rfl : Owing _ (restoreStack _ t.stack)).linkAll
  | true =>
    -- a handler that has not come will not come any more
    have hfinalizer : Owing (.finalizer t.enter :: (t.leaves ++ [g.next]).map jump)
        ({ g with tries := outer }.emitOpen (.tryLeave false)) := by
      refine hleave.fewer rfl rfl fun l _ => ?_
      rcases mem_cons.1 hstage with hbody | hhandler
      · simp only [OpenTry.owed, hbody, count_append, count_cons, count_nil]
        omega
      · simp only [OpenTry.owed, mem_singleton.1 hhandler, count_append, count_cons, count_nil]
        omega
    rw [← append_nil (List.map _ _)] at hfinalizer
    have hopen := hfinalizer.defer.openTry (t := { t with leaves := t.leaves ++ [g.next], stage := .finalizer })
    exact hopen.still rfl

lemma ends_owing_endFinalizer (ho : Owing [] g) : Ends endFinalizer g (fun _ => Owing []) fun _ => True := by
  refine (ends_popTry _ trivial).bind ?_
  rintro t _ ⟨hstage, outer, hb, rfl⟩
  have hpop := (ho.popTry hb).emit .finallyLeave
  rw [OpenTry.owed, mem_singleton.1 hstage] at hpop
  exact .modify (hpop.linkAll.still rfl)

end Generator

namespace Command

lemma keptByLinear_owing {P : Opcode → Prop} {extra : List Link} : KeptByLinear b f? P (Owing extra) where
  moves _ := kept_owing
  call name _ ho := ho.emitCall name
  still _ ho h := ho.still h

/-- **Every command keeps promises apart.** -/
lemma ends_run_owing (h : Ready b f? log g) (ho : Owing [] g) (c : Command) :
    Ends c.run g (fun _ => Owing []) fun _ => True := by
  by_cases hc : c.isLinear = true
  · exact keptByLinear_owing.run hc (inlines_true c) h ho
  · cases c with
    | beginIf => exact .modify (owing_beginIf ho)
    | beginElse => exact ends_owing_beginElse ho
    | endIf => exact ends_owing_endIf ho
    | beginWhile => exact .modify (owing_beginWhile ho)
    | beginWhileBody => exact ends_owing_beginWhileBody ho
    | endWhile hasElse => exact ends_owing_endWhile hasElse h ho
    | beginFor => exact ends_owing_beginFor ho
    | endFor hasElse => exact ends_owing_endFor hasElse h ho
    | endLoopElse => exact ends_owing_endLoopElse ho
    | breakLoop => exact ends_owing_breakLoop ho
    | continueLoop => exact ends_owing_continueLoop ho
    | beginTry => exact .modify (owing_beginTry ho)
    | beginHandler name => exact ends_owing_beginHandler name h ho
    | endTry hasFinalizer => exact ends_owing_endTry hasFinalizer ho
    | endFinalizer => exact ends_owing_endFinalizer ho
    | _ => exact absurd rfl hc

lemma ends_runAll_owing (cs : List Command) (h : Ready b f? log g) (ho : Owing [] g) :
    Ends (runAll cs) g (fun _ => Owing []) fun _ => True := by
  induction cs generalizing log g with
  | nil => exact .pure ho
  | cons c cs ih =>
    refine ((ends_run_owing h ho c).and (ends_run h c)).bind ?_
    rintro ⟨⟩ g' ⟨ho', hready, -⟩
    exact ih hready ho'

end Command

end NeoScript
