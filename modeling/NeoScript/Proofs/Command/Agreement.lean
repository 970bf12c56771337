import NeoScript.Proofs.Command.Sound
import NeoScript.Proofs.Generator.Agreement

/-!
# Commands on alike generators

The commands that are not straight hand handles on: to the construct that they open, to the links that they make, to
the calls that wait. Alike generators hand on handles that differ by the renaming, so every command agrees on them,
and with the commands whole bodies and methods.
-/

namespace NeoScript

open List Option ShadowStack

namespace Generator

variable {ρ : Handle ↪o Handle} {b : Outset} {g g' : Generator}

namespace Alike

/-! ### Steps of constructs -/

lemma track (ha : Alike ρ b g g') {i i' : Instruction} (hi : i.Same ρ i') (pops : Nat) (result : Option ValueType) :
    Alike ρ b ((g.append i).track g.next pops result) ((g'.append i').track g'.next pops result) := by
  rw [track_append, track_append]
  cases result with
  | some t => exact (ha.append hi).move ((Move.stay.popTypes pops).pushType t)
  | none => exact (ha.append hi).move (Move.stay.popTypes pops)

/-- A jump that takes what it tests. -/
lemma trackJump (ha : Alike ρ b g g') (test : JumpTest) :
    Alike ρ b ((g.emitJump test).track g.next 1 none) ((g'.emitJump test).track g'.next 1 none) :=
  ha.track ⟨rfl, rfl, rfl⟩ 1 none

section Records

variable {old new : List Handle}

/-- Records are looked up in the new code, and in the last instruction before it at most. -/
lemma recordedBefore (ha : Alike ρ b g g') (hl : g.code.live = old ++ new) (hlast : old.getLast? = b.last)
    (hnew : ∀ x ∈ new, b.next ≤ x) {count : Nat} (hc : old.length ≤ count) :
    g'.stack.recordedBefore g'.code count = g.stack.recordedBefore g.code count := by
  induction count with
  | zero => rfl
  | succ count ih =>
    rw [ShadowStack.recordedBefore, ShadowStack.recordedBefore, ha.code.order_getElem?]
    have horder : g.code.order[count]? = (old ++ new)[count]? := by rw [← hl, ← Array.getElem?_toList]; rfl
    rw [horder]
    by_cases hle : old.length ≤ count
    · rw [ih hle, getElem?_append_right hle]
      cases hx : new[count - old.length]? with
      | none => rfl
      | some x =>
        rw [map_some, bind_some, bind_some,
          ha.recorded x (.inl (hnew x (mem_of_getElem? hx)))]
    · have hlen : old.length - 1 = count := by omega
      rw [getElem?_append_left (by omega)]
      rw [getLast?_eq_getElem?, hlen] at hlast
      rw [hlast]
      cases hx : b.last with
      | none =>
        rw [hx, List.getElem?_eq_none_iff] at hlast
        omega
      | some x =>
        obtain ⟨items, hitems⟩ := isSome_iff_exists.1 (ha.floor x hx)
        rw [map_some, bind_some, bind_some, ha.recorded x (.inr hx), hitems]

lemma stackAfter (ha : Alike ρ b g g') (hl : g.code.live = old ++ new) (hlast : old.getLast? = b.last)
    (hnew : ∀ x ∈ new, b.next ≤ x) {jump : Handle} (hj : jump ∈ new) : g'.stackAfter (ρ jump) = g.stackAfter jump := by
  obtain ⟨pre, post, hsplit⟩ := append_of_mem hj
  rw [hsplit, ← append_assoc] at hl
  have hl' : g'.code.live = (old ++ pre).map ρ ++ ρ jump :: post.map ρ := by
    rw [ha.code.live, hl, map_append, map_cons]
  rw [Generator.stackAfter, Generator.stackAfter, snapshot, snapshot,
    ha.code.laid.start?_split hl, ha.code.laid'.start?_split hl', getD_some, getD_some,
    ha.code.laid.covering?_split hl, ha.code.laid'.covering?_split hl', bind_some, bind_some,
    ha.code.laid.position?_split hl, ha.code.laid'.position?_split hl', length_map]
  have hlive : g.code.live = old ++ new := hl.trans (by rw [hsplit, append_assoc])
  refine ha.recordedBefore hlive hlast hnew ?_
  change old.length ≤ (old ++ pre).length + 1
  rw [length_append]
  omega

end Records

variable (ha : Alike ρ b g g')
include ha

lemma pushBranch {x x' : OpenBranch} (hx : x' = x.rename ρ) :
    Alike ρ b { g with branches := x :: g.branches } { g' with branches := x' :: g'.branches } :=
  { ha with context := { ha.context with branches := by rw [map_cons, hx, ha.context.branches] } }

lemma popBranch : Alike ρ b g.popBranch g'.popBranch :=
  { ha with context := { ha.context with
    branches := by rw [Generator.popBranch, Generator.popBranch, ha.context.branches, map_tail] } }

lemma pushLoop {x x' : OpenLoop} (hx : x' = x.rename ρ) (hb : b.next ≤ x.startJump) :
    Alike ρ b { g with loops := x :: g.loops } { g' with loops := x' :: g'.loops } :=
  { ha with context := { ha.context with
    loops := by rw [map_cons, hx, ha.context.loops]
    started := fun l hl => (mem_cons.1 hl).elim (fun h => h ▸ hb) (ha.context.started l) } }

lemma popLoop : Alike ρ b g.popLoop g'.popLoop :=
  { ha with context := { ha.context with
    loops := by rw [Generator.popLoop, Generator.popLoop, ha.context.loops, map_tail]
    started := fun l hl => ha.context.started l (mem_of_mem_tail hl) } }

lemma pushGuard {x x' : Option Handle} (hx : x' = x.map ρ) :
    Alike ρ b { g with elseGuards := x :: g.elseGuards } { g' with elseGuards := x' :: g'.elseGuards } :=
  { ha with context := { ha.context with elseGuards := by rw [map_cons, hx, ha.context.elseGuards] } }

lemma pushTry {x x' : OpenTry} (hx : x' = x.rename ρ) :
    Alike ρ b { g with tries := x :: g.tries } { g' with tries := x' :: g'.tries } :=
  { ha with context := { ha.context with tries := by rw [map_cons, hx, ha.context.tries] } }

lemma pushScope : Alike ρ b g.pushScope g'.pushScope := by
  rw [Generator.pushScope, Generator.pushScope, ha.context.scopes]
  exact ha.rescope _

lemma popScope : Alike ρ b g.popScope g'.popScope := by
  rw [Generator.popScope, Generator.popScope, ha.context.scopes]
  exact ha.rescope _

lemma clearScope : Alike ρ b g.clearScope g'.clearScope := by
  rw [Generator.clearScope, Generator.clearScope, ha.context.scopes]
  exact ha.rescope _

end Alike

lemma head?_eq {α : Type} {f : α → α} {l l' : List α} (h : l' = l.map f) : l'.head? = l.head?.map f := by
  rw [h, head?_map]

/-! ### Conditional statements -/

lemma Alike.beginIf (ha : Alike ρ b g g') : Alike ρ b g.beginIf g'.beginIf := by
  refine (ha.trackJump .ifFalse).pushScope.pushBranch ?_
  rw [ha.next]
  rfl

variable {s : Generator} {f? : Option String} {log : List (Handle × String)}

lemma agree_beginElse (hr : Ready s f? log g) (ha : Alike ρ s.outset g g') :
    Agree ρ s.outset (· = ·) beginElse beginElse g g' := by
  obtain ⟨-, new, hs⟩ := hr
  refine .get (.modify_bind ?_)
  rw [head?_eq ha.context.branches]
  cases hb : g.branches.head? with
  | none => exact .throw _ ha.popBranch
  | some branch =>
    obtain ⟨jump, other⟩ := branch
    cases other with
    | some e => exact .throw _ ha.popBranch
    | none =>
      have hjump : jump ∈ new := (hs.jumps jump (mem_held.2 (.inl ⟨_, mem_of_head? hb, rfl⟩))).1
      have hpop := ha.popBranch
      have hlinked := (hpop.emitJump .always).linkNext (h := jump) rfl
      have hlive : ((g.popBranch.emitJump .always).linkNext jump).code.live =
          s.code.live ++ (new ++ [g.popBranch.next]) := by
        refine (live_append _ _).trans ?_
        rw [show g.popBranch.code.live = _ from hs.live, append_assoc]
        rfl
      have hnew : ∀ x ∈ new ++ [g.popBranch.next], s.outset.next ≤ x := fun x hx => by
        rcases mem_append.1 hx with hx | hx
        · exact hs.fresh x hx
        · exact mem_singleton.1 hx ▸ hs.grown
      have hstack := hlinked.stackAfter hlive (CodeMap.back?_eq _).symm hnew (mem_append_left _ hjump)
      refine .modify ((hlinked.restoreStack hstack).clearScope.pushBranch ?_)
      rw [hpop.next, hpop.context.items]
      rfl

lemma agree_endIf (hr : Ready s f? log g) (ha : Alike ρ s.outset g g') : Agree ρ s.outset (· = ·) endIf endIf g g' := by
  obtain ⟨-, new, hs⟩ := hr
  refine .get (.modify_bind ?_)
  rw [head?_eq ha.context.branches]
  cases hb : g.branches.head? with
  | none => exact .throw _ ha.popBranch
  | some branch =>
    obtain ⟨jump, other⟩ := branch
    have hpop := ha.popBranch
    cases other with
    | none =>
      have hjump : jump ∈ new := (hs.jumps jump (mem_held.2 (.inl ⟨_, mem_of_head? hb, rfl⟩))).1
      have hlinked := hpop.linkNext (h := jump) rfl
      refine .modify (hlinked.restoreStack ?_).popScope
      exact congrArg₂ _ hlinked.context.items
        (hlinked.stackAfter hs.live (CodeMap.back?_eq _).symm hs.fresh hjump)
    | some e =>
      have hlinked := hpop.linkNext (h := e.1) rfl
      exact .modify (hlinked.restoreStack (congrArg (ValueType.joinStacks · e.2) hlinked.context.items)).popScope

/-! ### Loops -/

variable (ha : Alike ρ b g g')
include ha

lemma Alike.openLoop {k k' : LoopKind} {h h' : Handle} (hk : k' = k.rename ρ) (hh : h' = ρ h)
    (hb : b.next ≤ h) : Alike ρ b (g.openLoop k h) (g'.openLoop k' h') := by
  refine ha.pushScope.pushLoop ?_ hb
  rw [ha.context.items, ha.context.tries, length_map, hk, hh]
  rfl

lemma Alike.modifyLoop {f f' : OpenLoop → OpenLoop}
    (hf : ∀ l, f' (l.rename ρ) = (f l).rename ρ) (hs : ∀ l, (f l).startJump = l.startJump) :
    Alike ρ b (g.modifyLoop f) (g'.modifyLoop f') := by
  have hloops := ha.context.loops
  have hstarted := ha.context.started
  rw [Generator.modifyLoop, Generator.modifyLoop]
  cases hl : g.loops with
  | nil =>
    rw [hl] at hloops
    rw [hloops]
    exact { ha with context := { ha.context with loops := rfl, started := fun l hl => by cases hl } }
  | cons l ls =>
    rw [hl] at hloops hstarted
    rw [hloops]
    have hpopped : Alike ρ b { g with loops := ls } { g' with loops := ls.map (OpenLoop.rename ρ) } :=
      { ha with context := { ha.context with
        loops := rfl
        started := fun x hx => hstarted x (mem_cons_of_mem _ hx) } }
    exact hpopped.pushLoop (hf l) (hs l ▸ hstarted l mem_cons_self)

lemma Alike.finishLoop (l : OpenLoop) (hasElse : Bool) :
    Alike ρ b (g.finishLoop l hasElse) (g'.finishLoop (l.rename ρ) hasElse) := by
  have hbegun : Alike ρ b (g.popScope.restoreStack l.stack) (g'.popScope.restoreStack l.stack) :=
    ha.popScope.restoreStack rfl
  have hexits : (l.rename ρ).breaks.map Break.jump = (l.breaks.map Break.jump).map ρ := by
    rw [List.map_map]
    exact map_map
  have hnone : (l.rename ρ).breaks.isEmpty = l.breaks.isEmpty := isEmpty_map
  have hkept : (l.rename ρ).kind.kept = l.kind.kept := LoopKind.kept_rename _ _
  simp only [Generator.finishLoop, hnone, hkept]
  refine restoreStack ?_ rfl
  split
  · have hflag := ((hbegun.move (Move.stay.dropN l.kind.kept)).move
      (Move.stay.op (.pushBool false) rfl 0 (some .bool))).linkAll hexits
    exact (hflag.trackJump .ifTrue).pushGuard (congrArg some hflag.next)
  · have hlinked := ((hbegun.removeFlags l.breaks).move (Move.stay.dropN l.kind.kept)).linkAll hexits
    split
    · exact hlinked.pushGuard rfl
    · exact hlinked

lemma agree_endLoopElse : Agree ρ b (· = ·) endLoopElse endLoopElse g g' := by
  refine .get ?_
  rw [ha.context.elseGuards]
  cases g.elseGuards with
  | nil => exact .throw _ ha
  | cons guard outer =>
    have hpop : Alike ρ b { g with elseGuards := outer } { g' with elseGuards := outer.map (Option.map ρ) } :=
      { ha with context := { ha.context with elseGuards := rfl } }
    cases guard with
    | none => exact .modify hpop
    | some jump => exact .modify (hpop.linkNext rfl)

lemma Alike.leaveTries (levels : Nat) : Alike ρ b (g.leaveTries levels) (g'.leaveTries levels) := by
  induction levels generalizing g g' with
  | zero => exact ha
  | succ levels ih => exact ih ((ha.emitOpen _).linkNext ha.next)

lemma Alike.exitJump (levels : Nat) :
    Alike ρ b (g.exitJump levels).1 (g'.exitJump levels).1 ∧ (g'.exitJump levels).2 = ρ (g.exitJump levels).2 :=
  ⟨(ha.leaveTries _).emitOpen _, (ha.leaveTries _).next⟩

lemma agree_innerLoop (exit : LoopExit) :
    Agree ρ b (fun e e' => e' = (e.1.rename ρ, e.2)) (innerLoop exit) (innerLoop exit) g g' := by
  refine .get ?_
  rw [ha.context.loops, ha.context.tries, length_map]
  cases g.loops with
  | nil => exact .throw _ ha
  | cons l ls =>
    change Agree ρ b _ _ (if g.tries.length < l.tryDepth then throw Fault.misuse
      else Pure.pure (l.rename ρ, g.tries.length - l.tryDepth)) g g'
    dsimp only
    split
    · exact .throw _ ha
    · exact .pure rfl ha

lemma agree_breakLoop : Agree ρ b (· = ·) breakLoop breakLoop g g' := by
  refine (agree_innerLoop ha _).bind fun e e' k k' he hk => .modify ?_
  subst he
  have hkept : (e.1.rename ρ).kind.kept = e.1.kind.kept := LoopKind.kept_rename _ _
  have hdropped := hk.move (Move.stay.dropN e.1.kind.kept)
  obtain ⟨hexit, hjump⟩ := (hdropped.move (Move.stay.op (.pushBool true) rfl 0 (some .bool))).exitJump e.2
  dsimp only
  rw [hkept]
  refine (hexit.restoreStack hk.context.items).modifyLoop (fun l => ?_) fun _ => rfl
  rw [hdropped.next, hjump]
  simp [OpenLoop.rename, Break.rename]

lemma agree_continueLoop : Agree ρ b (· = ·) continueLoop continueLoop g g' := by
  refine (agree_innerLoop ha _).bind fun e e' k k' he hk => .modify ?_
  subst he
  obtain ⟨hexit, hjump⟩ := hk.exitJump e.2
  dsimp only
  refine hexit.modifyLoop (fun l => ?_) fun _ => rfl
  rw [hjump]
  simp [OpenLoop.rename]

lemma Alike.beginWhile : Alike ρ b g.beginWhile g'.beginWhile :=
  ((ha.emitJump .always).linkNext ha.next).openLoop rfl ha.next ha.base

lemma agree_beginWhileBody : Agree ρ b (· = ·) beginWhileBody beginWhileBody g g' := by
  have hopened : Agree ρ b (· = ·)
      (modify fun g => (((g.emitJump .ifTrue).track g.next 1 none).linkNext g.next).modifyLoop
        fun loop => { loop with kind := .conditional (some g.next) })
      (modify fun g => (((g.emitJump .ifTrue).track g.next 1 none).linkNext g.next).modifyLoop
        fun loop => { loop with kind := .conditional (some g.next) }) g g' := by
    refine .modify (((ha.trackJump .ifTrue).linkNext ha.next).modifyLoop (fun l => ?_) fun _ => rfl)
    rw [ha.next]
    rfl
  refine .get ?_
  rw [head?_eq ha.context.loops]
  cases g.loops.head? with
  | none => exact .throw _ ha
  | some l =>
    obtain ⟨kind, start, continues, breaks, depth, stack⟩ := l
    match kind with
    | .conditional none => exact hopened
    | .conditional (some _) | .indexed _ | .iterated _ => exact .throw _ ha

lemma Alike.closeTest (test jump : Handle) : Alike ρ b (g.closeTest test jump) (g'.closeTest (ρ test) (ρ jump)) := by
  have hjump : ∀ l : Link, l.rename ρ = .jump (ρ jump) ↔ l = .jump jump := fun l =>
    Link.rename_injective.eq_iff (b := .jump jump)
  have hcontains : g'.pending.contains (.jump (ρ jump)) = g.pending.contains (.jump jump) := by
    rw [ha.pending, Bool.eq_iff_iff]
    simp [hjump]
  rw [Generator.closeTest, Generator.closeTest, hcontains]
  split
  · have hfilter : (g'.pending.filter fun l => decide (l ≠ .jump (ρ jump))) =
        (g.pending.filter fun l => decide (l ≠ .jump jump)).map (Link.rename ρ) := by
      rw [ha.pending, List.filter_map]
      simp [Function.comp_def, hjump]
    refine setTarget ?_ fun _ => rfl
    exact { ha with pending := hfilter, context := ha.context.of_context rfl rfl }
  · exact (ha.resolveAll test).moveTest test jump

lemma agree_endWhile (hasElse : Bool) : Agree ρ b (· = ·) (endWhile hasElse) (endWhile hasElse) g g' := by
  refine .get (.modify_bind ?_)
  rw [head?_eq ha.context.loops]
  cases hl : g.loops.head? with
  | none => exact .throw _ ha.popLoop
  | some l =>
    have hpop := ha.popLoop
    have hstart : b.next ≤ l.startJump := ha.context.started l (mem_of_head? hl)
    have htarget : g'.popLoop.code.target? (l.rename ρ).startJump =
        (g.popLoop.code.target? l.startJump).map (Target.rename ρ) := hpop.code.target?_eq (.inr hstart)
    refine .get ?_
    rw [htarget]
    obtain ⟨kind, start, continues, breaks, depth, stack⟩ := l
    match kind, g.popLoop.code.target? start with
    | .conditional (some jump), some (.code test) =>
      exact .modify (((hpop.closeTest test jump).pointAll test fun x => mem_map).finishLoop _ hasElse)
    | .conditional (some _), none | .conditional (some _), some .unresolved
    | .conditional (some _), some .scriptEnd | .conditional (some _), some (.handlers _ _)
    | .conditional none, _ | .indexed _, _ | .iterated _, _ =>
      exact .throw _ ha.popLoop

/-! #### Loops over a collection -/

lemma Alike.beginIterated (item : ValueType) : Alike ρ b (g.beginIterated item) (g'.beginIterated item) := by
  have hjump := ha.emitJump .always
  have hbody := (hjump.move (Move.stay.emit .dup rfl)).move (Move.stay.callService .iteratorValue 0 none)
  exact (hbody.openLoop (congrArg LoopKind.iterated hjump.next) ha.next ha.base).move (Move.stay.pushType item)

lemma Alike.beginIndexed (collection : ValueType) :
    Alike ρ b (g.beginIndexed collection) (g'.beginIndexed collection) := by
  have hindex := ha.move (Move.stay.op (.push 0) rfl 0 (some .nonNegInt))
  have hjump := hindex.emitJump .always
  exact ((hjump.emitSnippet _).openLoop (congrArg LoopKind.indexed hjump.next) hindex.next hindex.base).move
    (Move.stay.pushType _)

lemma agree_beginFor : Agree ρ b (· = ·) beginFor beginFor g g' := by
  refine .get ?_
  rw [show g'.stack.peek 0 = g.stack.peek 0 by rw [peek, peek, ha.context.items]]
  split
  · exact .modify ((ha.move (Move.stay.op .keys rfl 1 _)).beginIndexed _)
  · exact .modify (ha.beginIterated _)
  · split
    · exact .modify (ha.beginIndexed _)
    · exact .throw _ ha

lemma Alike.closeFor {l : OpenLoop} {body : Handle} {advance : Generator → Handle → Generator}
    (hadvance : Advancing l.kind body advance) (hasElse : Bool) :
    Alike ρ b (g.closeFor l body hasElse advance) (g'.closeFor (l.rename ρ) (ρ body) hasElse advance) := by
  obtain ⟨p, q, hp, hq, heq⟩ := hadvance.moves
  have hlinked := (ha.restoreStack rfl : Alike ρ b (g.restoreStack l.stack) _).linkAll (rfl : (l.rename ρ).continues = _)
  have hback : (⟨.jump .ifTrue false, [], .code body⟩ : Instruction).Same ρ
      ⟨.jump .ifTrue false, [], .code (ρ body)⟩ := ⟨rfl, rfl, rfl⟩
  have hmoved := ((hlinked.move hp).linkNext (rfl : (l.rename ρ).startJump = _)).move hq
  rw [← heq, ← heq] at hmoved
  exact (hmoved.track hback 1 none).finishLoop l hasElse

lemma agree_endFor (hasElse : Bool) : Agree ρ b (· = ·) (endFor hasElse) (endFor hasElse) g g' := by
  refine .get (.modify_bind ?_)
  rw [head?_eq ha.context.loops]
  cases g.loops.head? with
  | none => exact .throw _ ha.popLoop
  | some l =>
    have hpop := ha.popLoop
    obtain ⟨kind, start, continues, breaks, depth, stack⟩ := l
    cases kind with
    | conditional _ => exact .throw _ ha.popLoop
    | indexed body => exact .modify (hpop.closeFor (.index body) hasElse)
    | iterated body => exact .modify (hpop.closeFor (.iterator body) hasElse)

/-! ### Protected blocks -/

lemma Alike.beginTry : Alike ρ b g.beginTry g'.beginTry := by
  have henter : Alike ρ b (g.emitTarget (.tryEnter false) (.handlers none none))
      (g'.emitTarget (.tryEnter false) (.handlers none none)) := ha.emitTarget _ rfl
  refine henter.pushTry ?_
  rw [ha.next, henter.context.items]
  rfl

lemma agree_popTry (stages : List TryStage) :
    Agree ρ b (fun t t' => t' = t.rename ρ) (popTry stages) (popTry stages) g g' := by
  have hpop : Alike ρ b { g with tries := g.tries.tail } { g' with tries := g'.tries.tail } :=
    { ha with context := { ha.context with tries := by rw [ha.context.tries, map_tail] } }
  refine .get (.modify_bind ?_)
  rw [head?_eq ha.context.tries]
  cases g.tries.head? with
  | none => exact .throw _ hpop
  | some t =>
    rw [map_some, filter_some, filter_some, show (t.rename ρ).stage = t.stage from rfl]
    split
    · exact .pure rfl hpop
    · exact .throw _ hpop

/-- The block that remembers how a part of it is left. -/
lemma Alike.rename_leaves (t : OpenTry) (stage : TryStage) :
    ({ t.rename ρ with leaves := (t.rename ρ).leaves ++ [g'.next], stage } : OpenTry) =
      { t with leaves := t.leaves ++ [g.next], stage }.rename ρ := by
  simp [OpenTry.rename, ha.next]

/-- A type that no instruction accounts for. -/
lemma Alike.pushUnrecorded (t : ValueType) :
    Alike ρ b { g with stack := g.stack.push none t } { g' with stack := g'.stack.push none t } :=
  { ha with context := { ha.context with items := by simp [ha.context.items] } }

lemma agree_beginHandler (name : Option String) : Agree ρ b (· = ·) (beginHandler name) (beginHandler name) g g' := by
  refine (agree_popTry ha _).bind fun t t' k k' ht hk => .modify_bind ?_
  subst ht
  have hlink : Link.handler (ρ t.enter) = (Link.handler t.enter).rename ρ := rfl
  have hleft := ((hk.emitOpen (.tryLeave false)).defer hlink).restoreStack (rfl : t.stack = t.stack)
  have hopened := (hleft.pushUnrecorded .any).pushTry (hk.rename_leaves t .handler)
  cases name with
  | some name => exact (straight_store (P := fun _ => True) name).agree hopened
  | none => exact .modify (hopened.move Move.stay.drop)

lemma agree_endTry (hasFinalizer : Bool) : Agree ρ b (· = ·) (endTry hasFinalizer) (endTry hasFinalizer) g g' := by
  refine (agree_popTry ha _).bind fun t t' k k' ht hk => .modify ?_
  subst ht
  have hleft := (hk.emitOpen (.tryLeave false)).restoreStack (rfl : t.stack = t.stack)
  cases hasFinalizer with
  | true =>
    have hlink : Link.finalizer (ρ t.enter) = (Link.finalizer t.enter).rename ρ := rfl
    exact (hleft.defer hlink).pushTry (hk.rename_leaves t .finalizer)
  | false => exact hleft.linkAll (congrArg OpenTry.leaves (hk.rename_leaves t t.stage))

lemma agree_endFinalizer : Agree ρ b (· = ·) endFinalizer endFinalizer g g' := by
  refine (agree_popTry ha _).bind fun t t' k k' ht hk => .modify ?_
  subst ht
  exact ((hk.emitOpen .finallyLeave).linkAll rfl).restoreStack rfl

/-! ### Calls -/

lemma Alike.emitCall (name : String) : Alike ρ b (g.emitCall name) (g'.emitCall name) := by
  rw [Generator.emitCall, Generator.emitCall, ha.entry]
  cases g.entries.get? name with
  | some entry => exact ha.emitTarget _ rfl
  | none =>
    have hopen := ha.emitOpen (.call false)
    have htarget : (g'.emitOpen (.call false)).code.target? g'.next = some .unresolved ↔
        (g.emitOpen (.call false)).code.target? g.next = some .unresolved := by
      rw [ha.next, hopen.code.target?_eq (h := g.next) (.inr ha.base), map_eq_some_iff]
      constructor
      · rintro ⟨t, ht, hr⟩
        cases t <;> cases hr
        exact ht
      · exact fun h => ⟨_, h, rfl⟩
    simp only [htarget]
    split
    · exact hopen.await name ha.next
    · exact hopen

lemma agree_callMethod (name : String) : Agree ρ b (· = ·) (callMethod name) (callMethod name) g g' := by
  refine .get ?_
  rw [show g'.methodOf name = g.methodOf name by rw [methodOf, methodOf, ha.context.symbols]]
  refine (Agree.ofExcept _ ha).bind fun method _ k k' he hk => .modify ?_
  subst he
  have hargs : Alike ρ b (if method.packsArgs then k.packTop method.args.size else k.reverseTop method.args.size)
      (if method.packsArgs then k'.packTop method.args.size else k'.reverseTop method.args.size) :=
    hk.move (.ite (Move.stay.packTop _) (Move.stay.reverseTop _))
  have hcalled := (hargs.emitCall name).move (Move.stay.popTypes method.argSlots)
  exact hcalled.move (.ite (Move.stay.pushType method.returns) .stay)

lemma agree_newObject (name : String) : Agree ρ b (· = ·) (newObject name) (newObject name) g g' := by
  refine .get ?_
  rw [ha.context.symbols]
  refine (Agree.ofOption _ _ ha).bind fun c _ k k' he hk => ?_
  subst he
  rw [show g'.constructorOf name c = g.constructorOf name c by
    simp only [constructorOf, methodOf, ha.context.symbols]]
  refine (Agree.ofExcept _ hk).bind fun init _ k k' he hk => .modify ?_
  subst he
  have hmade := hk.move (((Move.stay.reverseTop ((init.map fun e => e.2.args.size - 1).getD 0)).pushIndex
    c.fields.size).op .newArray rfl 1 (some (.object name)))
  cases init with
  | none => exact hmade
  | some e => exact (hmade.emitCall e.1).move ((Move.stay.popTypes _).pushType _)

end Generator

namespace Command

open Generator

variable {ρ : Handle ↪o Handle} {g g' s : Generator} {f? : Option String} {log : List (Handle × String)}

/-- **Alike generators answer every command in the same way.** -/
lemma agree_run (c : Command) (hr : Ready s f? log g) (ha : Alike ρ s.outset g g') :
    Agree ρ s.outset (· = ·) c.run c.run g g' := by
  cases hc : c.isStraight with
  | true =>
    rcases straight_run hc with hx | ⟨name, t, rfl⟩
    · exact hx.agree ha
    · exact .modify (ha.narrow name t)
  | false =>
    cases c with
    | beginIf => exact .modify ha.beginIf
    | beginElse => exact agree_beginElse hr ha
    | endIf => exact agree_endIf hr ha
    | beginWhile => exact .modify ha.beginWhile
    | beginWhileBody => exact agree_beginWhileBody ha
    | endWhile hasElse => exact agree_endWhile ha hasElse
    | beginFor => exact agree_beginFor ha
    | endFor hasElse => exact agree_endFor ha hasElse
    | endLoopElse => exact agree_endLoopElse ha
    | breakLoop => exact agree_breakLoop ha
    | continueLoop => exact agree_continueLoop ha
    | beginTry => exact .modify ha.beginTry
    | beginHandler name => exact agree_beginHandler ha name
    | endTry hasFinalizer => exact agree_endTry ha hasFinalizer
    | endFinalizer => exact agree_endFinalizer ha
    | call name => exact agree_callMethod ha name
    | newObject className => exact agree_newObject ha className
    | _ => cases hc

lemma agree_runAll (cs : List Command) (hr : Ready s f? log g) (ha : Alike ρ s.outset g g') :
    Agree ρ s.outset (· = ·) (runAll cs) (runAll cs) g g' := by
  induction cs generalizing g g' log with
  | nil => exact .pure rfl ha
  | cons c cs ih =>
    exact (agree_run c hr ha).bind_of_ends (ends_run hr c) fun _ _ _ _ _ hready hk => ih hready.1 hk

end Command

end NeoScript
