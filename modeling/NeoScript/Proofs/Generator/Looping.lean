import NeoScript.Proofs.Generator.Construct

/-!
# Loops

Opening, leaving and closing a loop keeps the invariant. The exits of a loop are held until the loop is closed; then
they are linked behind it, and the flags that nobody tests are removed.
-/

namespace NeoScript.Generator

open List Option CodeMap NeoScript.Break Sound

variable {b : Generator} {f? : Option String} {log : List (Handle × String)} {X Y : Handle → Prop}
  {new : List Handle} {g g' : Generator} {loop : OpenLoop} {outer : List OpenLoop}

namespace Sound

variable {start : Handle} {loop : OpenLoop} {outer : List OpenLoop}

/-! ### Flags -/

/-- What was emitted after some other new instruction is gone already, or there is new code in front of it. -/
lemma flag_cases {flag : Handle} (hs : Sound b f? log X new g) (hstart : start ∈ new) (hlt : start < flag) :
    g.removeInstruction flag = g ∨ ∃ a pre post, new = a :: pre ++ flag :: post := by
  by_cases hlive : flag ∈ g.code.live
  · have hnew : flag ∈ new := hs.mem_new hlive (Nat.le_trans (hs.fresh start hstart) (Nat.le_of_lt hlt))
    obtain ⟨pre, post, rfl⟩ := append_of_mem hnew
    cases pre with
    | nil => exact absurd (hs.head flag rfl start hstart) (Nat.not_le.2 hlt)
    | cons a pre => exact .inr ⟨a, pre, post, rfl⟩
  · exact .inl (by rw [removeInstruction, hs.laid.start?_eq_none hlive])

/-- Removing a constant that was emitted after some other new instruction. -/
lemma removeFlag {flag : Handle} (hs : Sound b f? log X new g) (hstart : start ∈ new) (hlt : start < flag)
    (hc : g.code.constant? flag = some true) :
    ∃ new', Sound b f? log X new' (g.removeInstruction flag) ∧ Grows new new' g (g.removeInstruction flag) := by
  rcases hs.flag_cases hstart hlt with hself | ⟨a, pre, post, rfl⟩
  · rw [hself]
    exact ⟨new, hs, .of_code rfl rfl⟩
  · obtain ⟨hctx, hshape⟩ := removeInstruction_keeps hs.laid flag
    refine ⟨_, hs.excise rfl (by simp) hc, constructs_of_context hctx, fun x hx hne => ?_,
      fun x _ => congrFun hshape x, fun x _ _ hx => hx⟩
    have hxf : x ≠ flag := by
      rintro rfl
      rw [hc] at hne
      cases hne
    simpa [hxf] using hx

lemma removeFlags {breaks : List Break} (hs : Sound b f? log X new g) (hstart : start ∈ new)
    (hr : g.code.role? start = some .leap) (hflags : ∀ e ∈ breaks, start < e.flag ∧ g.code.constant? e.flag = some true) :
    ∃ new', Sound b f? log X new' (g.removeFlags breaks) ∧ Grows new new' g (g.removeFlags breaks) := by
  induction breaks generalizing new g with
  | nil => exact ⟨new, hs, .of_code rfl rfl⟩
  | cons e breaks ih =>
    obtain ⟨hlt, hc⟩ := hflags e mem_cons_self
    obtain ⟨new1, hs1, hg1⟩ := hs.removeFlag hstart hlt hc
    obtain ⟨new2, hs2, hg2⟩ := ih hs1 (hg1.leap ⟨hstart, hr⟩).1 (hg1.role hr) fun e' he' =>
      ⟨(hflags e' (mem_cons_of_mem _ he')).1, hg1.constant (hflags e' (mem_cons_of_mem _ he')).2⟩
    exact ⟨new2, hs2, hg1.trans hg2⟩

/-! ### Closing -/

lemma frame_linkAll (g : Generator) (ss : List Handle) : (g.linkAll ss).frame = g.frame := by rw [linkAll_eq]

/-- The exits of a loop that was taken off the open ones are linked behind it. -/
lemma finishLoop (hs : Sound b f? log (fun x => x ∈ loop.breaks.map jump) new g)
    (hf : g.frame.isSome) (hl : LoopSound new g.code loop)
    (hexits : ∀ h ∈ loop.breaks.map jump, h ∈ new ∧ g.code.role? h = some .leap) (hasElse : Bool) :
    Ready b f? log (g.finishLoop loop hasElse) := by
  have hs0 : Sound b f? log (fun x => x ∈ loop.breaks.map jump) new (g.popScope.restoreStack loop.stack) :=
    hs.still rfl
  have hf0 : (g.popScope.restoreStack loop.stack).frame.isSome := hf
  have hl0 : LoopSound new (g.popScope.restoreStack loop.stack).code loop := hl
  have hexits0 : ∀ h ∈ loop.breaks.map jump,
      h ∈ new ∧ (g.popScope.restoreStack loop.stack).code.role? h = some .leap := hexits
  unfold Generator.finishLoop
  dsimp only
  generalize g.popScope.restoreStack loop.stack = g0 at hs0 hf0 hl0 hexits0
  split_ifs with htest helse
  · -- The exits carry flags, which a jump behind the natural exit tests.
    obtain ⟨new1, hs1, hg1⟩ :=
      ((Move.stay.dropN loop.kind.kept).op (.pushBool false) rfl 0 (some .bool)).sound hs0 hf0
    have hlink := hs1.linkAll _ (Y := fun _ => False) (fun h hh => hg1.leap (hexits0 h hh)) fun x hx => .inl hx
    have hf1 := (frame_linkAll _ (loop.breaks.map jump)).trans hg1.frame
    generalize Generator.linkAll _ (loop.breaks.map jump) = g1 at hlink hf1
    have hguard := (hlink.append_open (o := .jump .ifTrue false) rfl).openGuard (o := some g1.next)
      (Y := fun _ => False) (fun h hh => some.inj hh ▸ ⟨by simp [next], role?_emitOpen _ _⟩) (by grind [next])
    exact ⟨((frame_append g1 _).trans hf1).symm ▸ hf0, _, hguard.still rfl⟩
  all_goals
    obtain ⟨new1, hs1, hg1⟩ := hs0.removeFlags hl0.start.1 hl0.start.2 hl0.flags
    obtain ⟨new2, hs2, hg2⟩ := (Move.stay.dropN loop.kind.kept).sound hs1 (hg1.isSome hf0)
    have hlink := hs2.linkAll _ (Y := fun _ => False) (fun h hh => hg2.leap (hg1.leap (hexits0 h hh)))
      fun x hx => .inl hx
    have hf1 := (frame_linkAll _ (loop.breaks.map jump)).trans (hg2.frame.trans hg1.frame)
    generalize Generator.linkAll _ (loop.breaks.map jump) = g1 at hlink hf1
  · have hguard := hlink.openGuard (o := none) (Y := fun _ => False) (by simp) (by simp)
    exact ⟨hf1.symm ▸ hf0, _, hguard.still rfl⟩
  · exact ⟨hf1.symm ▸ hf0, _, hlink.still rfl⟩

/-! ### Leaving early -/

variable (hs : Sound b f? log X new g)
include hs

lemma leaveTries (levels : Nat) :
    ∃ new', Sound b f? log X new' (g.leaveTries levels) ∧ Grows new new' g (g.leaveTries levels) := by
  induction levels generalizing new g with
  | zero => exact ⟨new, hs, .of_code rfl rfl⟩
  | succ levels ih =>
    have hlink := (hs.append_open (o := .tryLeave false) rfl).linkNext (h := g.next) (Y := X) (by simp [next])
      (role?_emitOpen _ _) (by grind [next])
    obtain ⟨new', hs', hg'⟩ := ih hlink
    have hgrow : Grows new (new ++ [g.code.nextHandle]) g ((g.emitOpen (.tryLeave false)).linkNext g.next) :=
      (grows_append new g _).trans (.of_code rfl rfl)
    exact ⟨new', hs', hgrow.trans hg'⟩

/-- A jump out of protected blocks, which the operation under way will hold. -/
lemma exitJump (levels : Nat) :
    ∃ new', Sound b f? log (fun x => X x ∨ x = (g.exitJump levels).2) new' (g.exitJump levels).1 ∧
      Grows new new' g (g.exitJump levels).1 ∧
      (g.exitJump levels).2 ∈ new' ∧ (g.exitJump levels).1.code.role? (g.exitJump levels).2 = some .leap := by
  obtain ⟨new', hs', hg'⟩ := hs.leaveTries (levels - 1)
  have hrole : (if levels = 0 then Opcode.jump .always false else .tryLeave false).role = .leap := by
    split_ifs <;> rfl
  refine ⟨_, hs'.append_open hrole (by split_ifs <;> rfl), hg'.trans (grows_append _ _ _),
    by simp [Generator.exitJump, next], ?_⟩
  exact (role?_emitOpen _ _).trans (by rw [hrole])

lemma beginLoop {k : LoopKind} {j : Handle}
    (hstart : j ∈ new ∧ g.code.role? j = some .leap) (hclosing : ∀ c, k ≠ .conditional (some c))
    (hbody : ∀ d, k = .indexed d ∨ k = .iterated d → d ∈ new ∧ new.head? ≠ some d ∧ g.code.constant? d = some false)
    (hX : ∀ x, X x → (∃ d, k = .indexed d ∨ k = .iterated d) ∧ x = j ∨ Y x) : Sound b f? log Y new (g.openLoop k j) := by
  have hopen := hs.openLoop (l := ⟨k, j, [], [], g.tries.length, g.stack.items⟩) (Y := Y)
    ⟨hstart, fun e he => (by cases he), fun c hc => absurd hc (hclosing c), hbody⟩ (fun h hh => ?_) fun x hx => ?_
  · exact hopen.still rfl
  · cases k <;> simp [OpenLoop.held] at hh
    · exact hh ▸ hstart
    · exact hh ▸ hstart
  · refine (hX x hx).imp ?_ id
    rintro ⟨⟨d, rfl | rfl⟩, rfl⟩ <;> simp [OpenLoop.held]

lemma modifyLoop {f : OpenLoop → OpenLoop} (hl : g.loops = loop :: outer) (hf : LoopSound new g.code (f loop))
    (hm : ∀ h ∈ (f loop).held, h ∈ new ∧ g.code.role? h = some .leap)
    (hX : ∀ x, X x ∨ x ∈ loop.held → x ∈ (f loop).held ∨ Y x) : Sound b f? log Y new (g.modifyLoop f) := by
  rw [show g.modifyLoop f = { g with loops := f loop :: outer } by rw [Generator.modifyLoop, hl]]
  exact (hs.popLoop hl).1.openLoop hf hm hX

/-- The loop, with everything it remembers, in a state in which more code was emitted. -/
lemma loop_grows {new' : List Handle} (hl : g.loops = loop :: outer) (hg : Grows new new' g g') :
    LoopSound new' g'.code loop ∧ ∀ h ∈ loop.held, h ∈ new' ∧ g'.code.role? h = some .leap := by
  obtain ⟨-, hloop, hheld⟩ := hs.popLoop hl
  exact ⟨hg.loop hloop, fun h hh => hg.leap (hheld h hh)⟩

end Sound

/-- The innermost loop, and the protected blocks since it was opened. -/
lemma ends_innerLoop {Q : Generator → Prop} (exit : LoopExit) (hQ : Q g) :
    Ends (innerLoop exit) g (fun e g' => g' = g ∧ ∃ outer, g.loops = e.1 :: outer ∧ g.tries.length = e.1.tryDepth + e.2)
      Q := by
  refine .get ?_
  cases hl : g.loops with
  | nil => exact .throw hQ
  | cons loop outer =>
    dsimp only
    split_ifs with hd
    · exact .throw hQ
    · exact .pure ⟨rfl, outer, rfl, (Nat.add_sub_cancel' (Nat.not_lt.1 hd)).symm⟩

section

variable (h : Ready b f? log g)
include h

lemma ends_continueLoop : Ends continueLoop g (fun _ => Ready b f? log) (Halted b f? log) := by
  refine (ends_innerLoop _ h.halted).bind ?_
  rintro ⟨loop, levels⟩ g1 ⟨hg1, outer, hl, -⟩
  rw [hg1]
  obtain ⟨hf, new, hs⟩ := h
  obtain ⟨new', hs', hg', hm, hr⟩ := hs.exitJump levels
  obtain ⟨hloop, hheld⟩ := hs.loop_grows hl hg'
  have hmodify := hs'.modifyLoop (f := fun l => { l with continues := l.continues ++ [(g.exitJump levels).2] })
    (Y := fun _ => False) (hg'.loops.trans hl) ⟨hloop.start, hloop.flags, hloop.closing, hloop.body⟩
    (fun h hh => ?_) fun x hx => ?_
  · exact .modify ⟨hg'.isSome hf, _, hmodify⟩
  · have hold := hheld h
    simp only [OpenLoop.held, mem_append, mem_singleton] at hh hold
    grind
  · simp only [OpenLoop.held, mem_append, mem_singleton] at hx ⊢
    grind

lemma ends_breakLoop : Ends breakLoop g (fun _ => Ready b f? log) (Halted b f? log) := by
  refine (ends_innerLoop _ h.halted).bind ?_
  rintro ⟨loop, levels⟩ g1 ⟨hg1, outer, hl, -⟩
  rw [hg1]
  obtain ⟨hf, new, hs⟩ := h
  obtain ⟨new1, hs1, hg1⟩ := (Move.stay.dropN loop.kind.kept).sound hs hf
  obtain ⟨hloop1, -⟩ := hs.loop_grows hl hg1
  have hlt := hs1.bound hloop1.start.1
  obtain ⟨new2, hs2, hg2⟩ := (Move.stay.op (.pushBool true) rfl 0 (some .bool)).sound hs1 (hg1.isSome hf)
  have hflag : ((g.dropN loop.kind.kept).op (.pushBool true) 0 (some .bool)).code.constant?
      (g.dropN loop.kind.kept).next = some true := by
    change ((g.dropN loop.kind.kept).append { opcode := .pushBool true }).code.constant? _ = _
    rw [constant?, next, shape?_append, if_pos rfl]
    rfl
  obtain ⟨new3, hs3, hg3, hm, hr⟩ := hs2.exitJump levels
  have hg := hg1.trans (hg2.trans hg3)
  obtain ⟨hloop, hheld⟩ := hs.loop_grows hl hg
  have hmodify := hs3.modifyLoop
    (f := fun l => { l with breaks := l.breaks ++ [⟨(g.dropN loop.kind.kept).next,
      (((g.dropN loop.kind.kept).op (.pushBool true) 0 (some .bool)).exitJump levels).2⟩] })
    (Y := fun _ => False) (hg.loops.trans hl)
    ⟨hloop.start, fun e he => ?_, hloop.closing, hloop.body⟩ (fun h hh => ?_) fun x hx => ?_
  · exact .modify ⟨hg.isSome hf, _, hmodify.still rfl⟩
  · rcases mem_append.1 he with he | he
    · exact hloop.flags e he
    · rw [mem_singleton.1 he]
      exact ⟨hlt, hg3.constant hflag⟩
  · have hold := hheld h
    simp only [OpenLoop.held, mem_append, map_append, map_cons, map_nil, mem_singleton] at hh hold
    grind
  · simp only [OpenLoop.held, mem_append, map_append, map_cons, map_nil, mem_singleton] at hx ⊢
    grind

lemma ends_endLoopElse : Ends endLoopElse g (fun _ => Ready b f? log) (Halted b f? log) := by
  obtain ⟨hf, new, hs⟩ := h
  refine .get ?_
  cases hb : g.elseGuards with
  | nil => exact .throw ⟨hf, _, new, hs⟩
  | cons o outer =>
    obtain ⟨hpop, hm⟩ := hs.popGuard hb
    refine .modify ?_
    cases o with
    | none => exact ⟨hf, new, hpop.mono (by simp)⟩
    | some jump =>
      have hlink := hpop.linkNext (Y := fun _ => False) (hm jump rfl).1 (hm jump rfl).2 (by grind)
      exact ⟨hf, new, hlink⟩

/-! ### Conditional loops -/

lemma ready_beginWhile : Ready b f? log g.beginWhile := by
  obtain ⟨hf, new, hs⟩ := h
  have hlink := (hs.append_open (o := .jump .always false) rfl).linkNext (h := g.next) (Y := fun _ => False)
    (by simp [next]) (role?_emitOpen _ _) (by grind [next])
  have hopen := hlink.beginLoop (k := .conditional none) (j := g.next) (Y := fun _ => False)
    ⟨by simp [next], role?_emitOpen _ _⟩ (by simp) (by simp) (by simp)
  exact ⟨(frame_append _ _).symm ▸ hf, _, hopen⟩

lemma ends_beginWhileBody : Ends beginWhileBody g (fun _ => Ready b f? log) (Halted b f? log) := by
  obtain ⟨hf, new, hs⟩ := h
  refine .get ?_
  split
  · next hkind =>
    obtain ⟨loop, hhead, hk⟩ := map_eq_some_iff.1 hkind
    obtain ⟨outer, hl⟩ := head?_eq_some_iff.1 hhead
    have hg := grows_append new g { opcode := .jump .ifTrue false }
    have hlink := (hs.append_open (o := .jump .ifTrue false) rfl).linkNext (h := g.next) (Y := fun _ => False)
      (by simp [next]) (role?_emitOpen _ _) (by grind [next])
    obtain ⟨hloop, hheld⟩ := hs.loop_grows hl hg
    have hmodify := hlink.modifyLoop (f := fun l => { l with kind := .conditional (some g.next) })
      (Y := fun _ => False) (hg.loops.trans hl)
      ⟨hloop.start, hloop.flags, fun j hj => ?_, fun d hd => ?_⟩ (fun h hh => hheld h ?_) fun x hx => ?_
    · exact .modify ⟨(frame_append _ _).symm ▸ hf, _, hmodify.still rfl⟩
    · cases hj
      exact ⟨by simp [next], role?_emitOpen _ _⟩
    · rcases hd with hd | hd <;> cases hd
    · simpa [OpenLoop.held, hk] using hh
    · simpa [OpenLoop.held, hk] using hx
  · exact .throw ⟨hf, _, new, hs⟩

end

namespace Sound

/-- Giving up the promise to link a jump. -/
lemma unlink (hs : Sound b f? log X new g) (j : Handle) : Sound b f? log (fun x => X x ∨ x = j) new
      { g with pending := g.pending.filter fun link => decide (link ≠ .jump j) } := by
  have hmem : ∀ l, l ∈ g.pending.filter (fun link => decide (link ≠ .jump j)) ↔ l ∈ g.pending ∧ l ≠ .jump j :=
    fun l => by rw [mem_filter, decide_eq_true_eq]
  refine hs.rewire (.of_code hs.laid rfl rfl rfl rfl fun m => ?_) hs.live (fun x hx _ => .inl hx)
    (fun h hm i hi hl => ?_) hs.protect (fun l hl => hs.links l ((hmem l).1 hl).1) hs.jumps hs.loops hs.tries
  · simp
  · refine (hs.leap h hm i hi hl).imp id fun hu => ⟨hu.1, ?_⟩
    rcases hu.2 with hp | hheld | hx
    · by_cases he : h = j
      · exact .inr (.inr (.inr he))
      · exact .inl ((hmem _).2 ⟨hp, fun e => he (Link.jump.inj e)⟩)
    · exact .inr (.inl hheld)
    · exact .inr (.inr (.inl hx))

lemma grows_of_keeps {new' : List Handle} (hctx : g'.context = g.context)
    (hshape : g'.code.shape? = g.code.shape?) (hmem : ∀ x, x ∈ new' ↔ x ∈ new) (hhead : new'.head? = new.head?) :
    Grows new new' g g' :=
  ⟨constructs_of_context hctx, fun x hx _ => (hmem x).2 hx, fun x _ => congrFun hshape x, fun _ _ _ hx => hhead ▸ hx⟩

/-- Joining the test and the body of a loop. -/
lemma closeTest {test bodyJump : Handle} (hs : Sound b f? log X new g) (htest : test ∈ new)
    (hhead : new.head? ≠ some test) (hm : bodyJump ∈ new) (hr : g.code.role? bodyJump = some .leap) :
    ∃ new', Sound b f? log X new' (g.closeTest test bodyJump) ∧ Grows new new' g (g.closeTest test bodyJump) ∧
      test ∈ new' ∧ new'.head? ≠ some test := by
  unfold Generator.closeTest
  split_ifs
  · have hset := (hs.unlink bodyJump).setTarget (Y := X) hm hr htest hhead fun x hx => hx.symm
    refine ⟨new, hset, grows_of_keeps (context_setTarget _ _ _) ?_ (fun _ => .rfl) rfl, htest, hhead⟩
    rw [code_setTarget, shape?_setTarget]
  · have hres := hs.resolveAll htest hhead
    obtain ⟨new', hmem, hhead', hmove⟩ := hres.moveTest bodyJump htest hhead
    refine ⟨new', hmove, grows_of_keeps ?_ ?_ hmem hhead', (hmem test).2 htest, hhead' ▸ hhead⟩
    · obtain ⟨t, heq⟩ := moveTest_eq (g.resolveAll test) test bodyJump
      rw [heq]
      exact context_resolveLinks _ _ _
    · funext x
      rw [shape?, instruction?_moveTest, ← shape?, resolveAll_eq, shape?_resolveLinks]

/-- The destination of a loop's first jump is new code behind the first instruction. -/
lemma target_of_leap {h d : Handle} (hs : Sound b f? log X new g) (hm : h ∈ new)
    (hr : g.code.role? h = some .leap) (ht : g.code.target? h = some (.code d)) : d ∈ new ∧ new.head? ≠ some d := by
  obtain ⟨i, hi, hit⟩ := bind_eq_some_iff.1 ht
  have hrole : i.opcode.role = .leap := by
    rw [role?_eq hi] at hr
    exact some.inj hr
  rw [Instruction.target?, if_pos (Opcode.hasTarget_eq_true.2 (by simp [hrole])), some.injEq] at hit
  rcases hs.leap h hm i hi hrole with ⟨d', hd', hne, ht'⟩ | ⟨hu, -⟩
  · rw [ht', Target.code.injEq] at hit
    exact hit ▸ ⟨hd', hne⟩
  · rw [hu] at hit
    cases hit

end Sound

/-- Joining the test and the body of the innermost loop, and sending its early continuations to the test. -/
lemma Sound.joinTest {test bodyJump : Handle} (hs : Sound b f? log (fun _ => False) new g) (hl : g.loops = loop :: outer)
    (hk : loop.kind = .conditional (some bodyJump)) (ht : g.code.target? loop.startJump = some (.code test)) :
    ∃ new', Sound b f? log (fun x => x ∈ loop.breaks.map jump) new'
        (({ g with loops := outer }.closeTest test bodyJump).pointAll loop.continues test) ∧
      Grows new new' { g with loops := outer }
        (({ g with loops := outer }.closeTest test bodyJump).pointAll loop.continues test) := by
  obtain ⟨hpop, hloop, hheld⟩ := hs.popLoop hl
  have hcont : ∀ x, x ∈ loop.held ↔ x ∈ loop.continues ∨ x ∈ loop.breaks.map jump := fun x => by
    simp [OpenLoop.held, hk]
  obtain ⟨htest, hhead⟩ := hpop.target_of_leap hloop.start.1 hloop.start.2 ht
  obtain ⟨hm, hr⟩ := hloop.closing bodyJump hk
  obtain ⟨new1, hs1, hg1, ht1, hh1⟩ := hpop.closeTest htest hhead hm hr
  have hpoint := hs1.pointAll loop.continues (Y := fun x => x ∈ loop.breaks.map jump)
    (fun h hh => hg1.leap (hheld h ((hcont h).2 (.inl hh)))) ht1 hh1 fun x hx => (hcont x).1 (hx.resolve_left id)
  exact ⟨new1, hpoint, hg1.trans (grows_of_keeps (context_pointAll _ loop.continues test)
    (shape?_pointAll _ loop.continues test) (fun _ => .rfl) rfl)⟩

/-- The innermost loop after it was taken off the open ones. -/
lemma Sound.left_grows {new' : List Handle} (hs : Sound b f? log X new g)
    (hl : g.loops = loop :: outer) (hg : Grows new new' { g with loops := outer } g') :
    LoopSound new' g'.code loop ∧ ∀ h ∈ loop.breaks.map jump, h ∈ new' ∧ g'.code.role? h = some .leap := by
  obtain ⟨-, hloop, hheld⟩ := hs.popLoop hl
  refine ⟨hg.loop hloop, fun h hh => hg.leap (hheld h ?_)⟩
  simp only [OpenLoop.held, mem_append]
  exact .inr hh

lemma Ready.halted_popLoop (h : Ready b f? log g) : Halted b f? log g.popLoop := by
  obtain ⟨hf, new, hs⟩ := h
  unfold popLoop
  cases hl : g.loops with
  | nil => exact ⟨hf, _, new, hs.still (by simp [core, hl])⟩
  | cons loop outer => exact ⟨hf, _, new, (hs.popLoop hl).1⟩

lemma ends_endWhile (hasElse : Bool) (h : Ready b f? log g) :
    Ends (endWhile hasElse) g (fun _ => Ready b f? log) (Halted b f? log) := by
  refine .endWhile h.halted_popLoop fun loop outer j test hl hk ht => ?_
  obtain ⟨hf, new, hs⟩ := h
  obtain ⟨new1, hs1, hg1⟩ := hs.joinTest hl hk ht
  obtain ⟨hloop, hexits⟩ := hs.left_grows hl hg1
  exact hs1.finishLoop (hg1.isSome hf) hloop hexits hasElse

/-! ### Loops over a collection -/

section

variable (h : Ready b f? log g)
include h

/-- A jump to the test and the first instruction of the body, which is no constant, open a loop. -/
lemma ready_openLoop {o : Opcode} {p : Generator → Generator} {k : Handle → LoopKind}
    (ho : (Snippet.op o).proper = true) (hc : pushesConstant { opcode := o } = false) (hp : Move p)
    (hkind : ∀ d, k d = .indexed d ∨ k d = .iterated d) :
    Ready b f? log ((p ((g.emitJump .always).emit o)).openLoop (k (g.emitJump .always).next) g.next) := by
  obtain ⟨hf, new, hs⟩ := h
  obtain ⟨hr, hproper, -⟩ := proper_op ho
  have hs1 := hs.append_open (o := .jump .always false) rfl
  have hs2 := hs1.append_of_plain (i := { opcode := o }) hr hproper
  have hg1 := grows_append new g { opcode := .jump .always false }
  have hg2 := grows_append (new ++ [g.next]) (g.emitJump .always) { opcode := o }
  obtain ⟨new3, hs3, hg3⟩ := hp.sound hs2 (hg2.isSome (hg1.isSome hf))
  have hjump : g.next ∈ new ++ [g.next] ∧ (g.emitJump .always).code.role? g.next = some .leap :=
    ⟨by simp, role?_emitOpen _ _⟩
  have hbody : ((g.emitJump .always).emit o).code.constant? (g.emitJump .always).next = some false := by
    rw [constant?, emit, next, shape?_append, if_pos rfl, map_some]
    exact congrArg some hc
  have hmem : (g.emitJump .always).next ∈ new ++ [g.next] ++ [(g.emitJump .always).next] := by simp
  have hhead := hs1.next_ne_head (by simp)
  have hopen := hs3.beginLoop (k := k (g.emitJump .always).next) (Y := fun _ => False) (hg3.leap (hg2.leap hjump))
    (fun j hj => ?_) (fun d hd => ?_)
    fun x hx => .inl ⟨⟨_, hkind _⟩, hx.resolve_left id⟩
  · exact ⟨hg3.isSome (hg2.isSome (hg1.isSome hf)), new3, hopen⟩
  · rcases hkind (g.emitJump .always).next with hk | hk <;> rw [hk] at hj <;> cases hj
  · have hd : d = (g.emitJump .always).next := by
      rcases hkind (g.emitJump .always).next with hk | hk <;> rw [hk] at hd <;> simpa [eq_comm] using hd
    subst hd
    exact ⟨hg3.kept _ hmem hbody, hg3.head _ hmem hbody hhead, hg3.constant hbody⟩

lemma ready_beginIterated (item : ValueType) : Ready b f? log (g.beginIterated item) := by
  obtain ⟨hf, new, hs⟩ := ready_openLoop (o := .dup) (k := .iterated) h rfl rfl
    (Move.stay.callService .iteratorValue 0 none) fun _ => .inr rfl
  exact ⟨hf, new, hs.still rfl⟩

lemma ready_beginIndexed (collection : ValueType) : Ready b f? log (g.beginIndexed collection) := by
  have hpick : (if collection = .str then Snippet.ops [.push 1, .subStr] ++ .convert .byteString
      else .op .pickItem).proper = true := by
    split_ifs <;> rfl
  unfold beginIndexed
  dsimp only
  generalize (if collection = .str then Snippet.ops [.push 1, .subStr] ++ .convert .byteString
    else .op .pickItem) = pick at hpick ⊢
  have h1 := (Move.stay.op (.push 0) rfl 0 (some .nonNegInt)).ready h
  generalize g.op (.push 0) 0 (some .nonNegInt) = g1 at h1 ⊢
  have hopen := ready_openLoop (o := .dupBelow) (k := .indexed) h1 rfl rfl
    (Move.comp (.snippet hpick) (Move.stay.emit .dupBelow rfl)) fun _ => .inl rfl
  exact (Move.stay.pushType _).ready hopen

lemma ends_beginFor : Ends beginFor g (fun _ => Ready b f? log) (Halted b f? log) := by
  refine .get ?_
  split
  · exact .modify (ready_beginIndexed ((Move.stay.op .keys rfl 1 _).ready h) _)
  · exact .modify (ready_beginIterated h _)
  · split_ifs
    · exact .modify (ready_beginIndexed h _)
    · exact .throw h.halted

end

/-- The code that advances a loop over a collection and jumps back. -/
def advanceLoop (g : Generator) (loop : OpenLoop) (body : Handle) (advance : Generator → Handle → Generator) :
    Generator :=
  let g := advance ((g.restoreStack loop.stack).linkAll loop.continues) loop.startJump
  let jump := g.next
  (g.emitTarget (.jump .ifTrue false) (.code body)).track jump 1 none

/-- Advancing the innermost loop over a collection, where the first jump leads to some point of what advances it, and
jumping back. -/
lemma Sound.joinAdvance {body : Handle}
    {advance : Generator → Handle → Generator} (hs : Sound b f? log (fun _ => False) new g) (hf : g.frame.isSome)
    (hl : g.loops = loop :: outer) (ha : Advancing loop.kind body advance) :
    ∃ new', Sound b f? log (fun x => x ∈ loop.breaks.map jump) new' ({ g with loops := outer }.advanceLoop loop body advance) ∧
      Grows new new' { g with loops := outer } ({ g with loops := outer }.advanceLoop loop body advance) := by
  obtain ⟨p, q, hp, hq, hadvance⟩ := ha.moves
  have hk := ha.kind_eq
  obtain ⟨hpop, hloop, hheld⟩ := hs.popLoop hl
  change ({ g with loops := outer } : Generator).frame.isSome at hf
  change ∀ h ∈ loop.held, h ∈ new ∧ ({ g with loops := outer } : Generator).code.role? h = some .leap at hheld
  change LoopSound new ({ g with loops := outer } : Generator).code loop at hloop
  generalize ({ g with loops := outer } : Generator) = g at *
  have hmem : ∀ x, x ∈ loop.held ↔ x = loop.startJump ∨ x ∈ loop.continues ∨ x ∈ loop.breaks.map jump :=
    fun x => by rcases hk with hk | hk <;> simp [OpenLoop.held, hk]
  have hlink := (hpop.still rfl : Sound b f? log _ new (g.restoreStack loop.stack)).linkAll loop.continues
    (Y := fun x => x = loop.startJump ∨ x ∈ loop.breaks.map jump)
    (fun h hh => hheld h ((hmem h).2 (.inr (.inl hh)))) fun x hx => by grind
  have hg1 : Grows new new g ((g.restoreStack loop.stack).linkAll loop.continues) :=
    .of_code (by rw [linkAll_eq]; rfl) (by rw [linkAll_eq]; rfl)
  unfold Generator.advanceLoop
  rw [hadvance]
  generalize (g.restoreStack loop.stack).linkAll loop.continues = g1 at hlink hg1 ⊢
  obtain ⟨new2, hs2, hg2⟩ := hp.sound hlink (hg1.isSome hf)
  have hstart := hs2.linkNext (Y := fun x => x ∈ loop.breaks.map jump)
    (hg2.leap (hg1.leap hloop.start)).1 (hg2.leap (hg1.leap hloop.start)).2 fun x hx => hx
  obtain ⟨new3, hs3, hg3⟩ := hq.sound hstart (hg2.isSome (hg1.isSome hf))
  have hg : Grows new new3 g (q ((p g1).linkNext loop.startJump)) :=
    (hg1.trans hg2).trans ((.of_code rfl rfl : Grows new2 new2 (p g1) ((p g1).linkNext loop.startJump)).trans hg3)
  generalize q ((p g1).linkNext loop.startJump) = g3 at hs3 hg ⊢
  obtain ⟨hbody, hhead, -⟩ := (hg.loop hloop).body body hk
  have hback := hs3.append_back (o := .jump .ifTrue false) rfl hbody hhead
  have hg' := hg.trans (grows_append new3 g3 ⟨.jump .ifTrue false, [], .code body⟩)
  exact ⟨_, hback.still rfl, hg'.trans (.of_code rfl rfl)⟩

lemma ends_endFor (hasElse : Bool) (h : Ready b f? log g) :
    Ends (endFor hasElse) g (fun _ => Ready b f? log) (Halted b f? log) := by
  refine .endFor h.halted_popLoop fun loop outer body advance hl ha => ?_
  obtain ⟨hf, new, hs⟩ := h
  obtain ⟨new1, hs1, hg1⟩ := hs.joinAdvance hf hl ha
  obtain ⟨hloop, hexits⟩ := hs.left_grows hl hg1
  exact hs1.finishLoop (hg1.isSome hf) hloop hexits hasElse

end NeoScript.Generator
