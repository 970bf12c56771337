import NeoScript.Proofs.Session.Speculation
import NeoScript.Proofs.Statement.Loops

/-!
# Statements keep the stack and what is open

Every part of a protected block starts and ends with the stack that the block remembers, and a statement that leaves the
method restores the stack that it found. With that, every complete statement leaves the stack, type by type, and the open
constructs and regions as they were.
-/

namespace NeoScript

open Generator Command List ShadowStack Bool

variable {b c g g' : Generator} {f? : Option String} {symbols : SymbolTable} {inLoop narrowing : Bool} {block : OpenTry}

/-! ### Protected blocks -/

namespace Generator

/-- A protected block that was begun on the state `b`, with one of its parts under way. -/
structure Protecting (inLoop narrowing : Bool) (b : Generator) (block : OpenTry) (g : Generator) : Prop where
  follows : ∃ x, Follows b x g
  enter : b.code.nextHandle ≤ block.enter
  leaves : ∀ j ∈ block.leaves, b.code.nextHandle ≤ j
  stack : block.stack = b.stack.items
  items : g.stack.items = b.stack.items
  branches : g.branches = b.branches
  loops : LoopsKept inLoop b.code.nextHandle b.loops g.loops
  elseGuards : g.elseGuards = b.elseGuards
  tries : g.tries = block :: b.tries
  scopes : ScopesKept narrowing b.scopes g.scopes

lemma payloads_enterHandler (g : Generator) (block : OpenTry) (outer : List OpenTry) (name : String) :
    (Command.store name).payloads ({ g with tries := outer }.enterHandler block) = (Command.store name).payloads g :=
  (congrArg (fun g => (Command.store name).payloads g)
    (context_append { g with tries := outer } { opcode := .tryLeave false }) :)

namespace Protecting

lemma opened (hl : b.code.Laid) : Protecting inLoop narrowing b ⟨b.next, [], b.stack.items, .body⟩ b.beginTry := by
  have hstack : (b.emitTarget (.tryEnter false) (.handlers none none)).stack = b.stack :=
    stack_of_context (context_append b _)
  obtain ⟨hb, hlo, he, ht, hs⟩ := eq_of_outline (outline_append b ⟨.tryEnter false, [], .handlers none none⟩)
  have hf : Follows b b.next (b.emitTarget (.tryEnter false) (.handlers none none)) := .first hl _
  refine ⟨⟨b.next, hf.still rfl rfl rfl rfl rfl rfl⟩, Nat.le_refl _, by simp, rfl, congrArg _ hstack, hb, .inl hlo, he, ?_, ?_⟩
  · change OpenTry.mk b.next [] (b.emitTarget (.tryEnter false) (.handlers none none)).stack.items .body ::
      (b.emitTarget (.tryEnter false) (.handlers none none)).tries = _
    rw [hstack]
    exact congrArg _ ht
  · change ScopesKept narrowing b.scopes (b.append ⟨.tryEnter false, [], .handlers none none⟩).scopes
    rw [hs]
    exact .refl _ _

variable (h : Protecting inLoop narrowing b block g) {x : Handle}
include h

lemma loopOpen (ho : LoopOpen inLoop b) : LoopOpen inLoop g :=
  h.loops.loopOpen [block] h.tries ho

/-- A part of the block. -/
lemma body (hl : b.code.Laid) (hk : Kept inLoop narrowing g g') : Protecting inLoop narrowing b block g' := by
  obtain ⟨x, hf⟩ := h.follows
  exact ⟨⟨x, hk.follows hf hl⟩, h.enter, h.leaves, h.stack, hk.items.trans h.items, hk.branches.trans h.branches,
    h.loops.trans hf.grown hk.loops, hk.elseGuards.trans h.elseGuards, hk.tries.trans h.tries, h.scopes.trans hk.scopes⟩

lemma regular_popTry (stages : List TryStage) :
    Regular (popTry stages) g fun t g' => t = block ∧ g' = { g with tries := b.tries } := by
  refine .get (.modify_bind ?_)
  rw [h.tries]
  refine .ofOption fun t ht => ?_
  exact ⟨(Option.some.inj (Option.filter_eq_some_iff.1 ht).1).symm, rfl⟩

/-- What the block remembers is there. -/
lemma mem_live (hg : Going c f? symbols g) : block.enter ∈ g.code.live ∧ ∀ j ∈ block.leaves, j ∈ g.code.live := by
  obtain ⟨-, log, -, old, hs⟩ := hg
  obtain ⟨-, henter, hleaves⟩ := hs.popTry h.tries
  exact ⟨hs.mem_live henter.1, fun j hj => hs.mem_live (hleaves j hj).1⟩

/-- The block is closed. -/
lemma kept (hf : Follows b x g')
    (hi : g'.stack.items = b.stack.items) (hout : g'.outline = { g with tries := b.tries }.outline) :
    Kept inLoop narrowing b g' := by
  obtain ⟨hb, hlo, he, ht, hs⟩ := eq_of_outline hout
  exact .of_follows hf hi (hb.trans h.branches) (hlo ▸ h.loops) (he.trans h.elseGuards) ht (hs ▸ h.scopes)

/-- The block goes on with its next part. -/
lemma next {leaves : List Handle} {stage : TryStage} (hf : Follows b x g') (hi : g'.stack.items = b.stack.items)
    (hout : g'.outline = { g with tries := { block with leaves, stage } :: b.tries }.outline)
    (hleaves : ∀ j ∈ leaves, b.code.nextHandle ≤ j) :
    Protecting inLoop narrowing b { block with leaves, stage } g' := by
  obtain ⟨hb, hlo, he, ht, hs⟩ := eq_of_outline hout
  exact ⟨⟨x, hf⟩, h.enter, hleaves, h.stack, hi, hb.trans h.branches, hlo ▸ h.loops, he.trans h.elseGuards, ht, hs ▸ h.scopes⟩

/-- The instruction that leaves a part of the block. -/
lemma leavePart (hl : b.code.Laid) (hg : Going c f? symbols g) :
    (∃ x, Follows b x ({ g with tries := b.tries }.emitOpen (.tryLeave false))) ∧
      ({ g with tries := b.tries }.emitOpen (.tryLeave false)).outline = { g with tries := b.tries }.outline ∧
      block.enter ∈ ({ g with tries := b.tries }.emitOpen (.tryLeave false)).code.live ∧
      ∀ j ∈ block.leaves ++ [g.next],
        j ∈ ({ g with tries := b.tries }.emitOpen (.tryLeave false)).code.live ∧ b.code.nextHandle ≤ j := by
  obtain ⟨x, hf⟩ := h.follows
  obtain ⟨henter, hleaves⟩ := h.mem_live hg
  have hf0 : Follows b x { g with tries := b.tries } := hf.still rfl rfl rfl rfl rfl rfl
  have hlive : ({ g with tries := b.tries }.emitOpen (.tryLeave false)).code.live = g.code.live ++ [g.next] :=
    live_append _ _
  rw [hlive]
  refine ⟨⟨x, hf0.append hl _⟩, outline_append _ _, mem_append_left _ henter, fun j hj => ?_⟩
  rcases mem_append.1 hj with hj | hj
  · exact ⟨mem_append_left _ (hleaves j hj), h.leaves j hj⟩
  · rw [mem_singleton.1 hj]
    exact ⟨mem_append_right _ mem_cons_self, hf.grown⟩

/-- The handler opened, with the exception on the stack of the block. -/
lemma enterHandler (hl : b.code.Laid) (hg : Going c f? symbols g) :
    ∃ x leaves, Follows b x ({ g with tries := b.tries }.enterHandler block) ∧
      ({ g with tries := b.tries }.enterHandler block).stack.items = .any :: b.stack.items ∧
      ({ g with tries := b.tries }.enterHandler block).outline =
        { g with tries := { block with leaves, stage := .handler } :: b.tries }.outline ∧
      ∀ j ∈ leaves, b.code.nextHandle ≤ j := by
  obtain ⟨⟨x, hf⟩, hout, henter, hleaves⟩ := h.leavePart hl hg
  refine ⟨x, block.leaves ++ [g.next], ?_, ?_, ?_, fun j hj => (hleaves j hj).2⟩
  · have hf' := ((hf.defer hl (l := .handler block.enter) rfl henter h.enter).restoreStack block.stack)
    exact (hf'.setItems (.any :: _)).still rfl rfl rfl rfl rfl rfl
  · change .any :: (ShadowStack.replace _ _ block.stack).items = _
    rw [items_replace, h.stack]
  · exact outline_openTry hout { block with leaves := block.leaves ++ [g.next], stage := .handler }

/-- The handler starts with the stack of the block, once the exception is taken. -/
lemma regular_beginHandler (hgb : Going c f? symbols b) (hg : Going c f? symbols g) (name : Option String)
    (hp : (Command.beginHandler name).pushes g = true) :
    Regular (beginHandler name) g fun _ g' => ∃ block', Protecting inLoop narrowing b block' g' := by
  rw [beginHandler_eq]
  refine (h.regular_popTry _).bind ?_
  rintro t _ - ⟨ht, rfl⟩
  rw [ht]
  refine .modify_bind ?_
  obtain ⟨x, leaves, hf, hi, hout, hleaves⟩ := h.enterHandler hgb.laid hg
  obtain ⟨-, log', -, old', hsb⟩ := id hgb
  obtain ⟨hsym, log, hr⟩ := hg
  have hr1 := ready_enterHandler hr h.tries
  have hpush := g.payloads_enterHandler block b.tries
  generalize ({ g with tries := b.tries } : Generator).enterHandler block = g1 at hf hi hout hr1 hpush
  cases name with
  | none =>
    refine .modify ⟨_, h.next (hf.op hgb.laid .drop 1 none) ?_ ((outline_op g1 .drop 1 none).trans hout) hleaves⟩
    change ((g1.append { opcode := .drop }).track g1.next 1 none).stack.items = _
    rw [track_one hi]
    exact items_replace _ _ _
  | some name =>
    obtain ⟨new, hhead, ha, hb⟩ := id hf
    have hlong : 1 ≤ new.length := length_pos_of_mem (mem_of_head? hhead)
    obtain ⟨hbr, hlo, he, htr, hs⟩ := eq_of_outline hout
    have hatop : Atop narrowing b b 1 1 g1 := ⟨⟨new, hb, hlong, .inl rfl⟩, ⟨[.any], hi, rfl⟩, hs ▸ h.scopes⟩
    refine (regular_store hatop hr1 (fun _ => rfl) name (hpush name ▸ all_eq_true.1 hp)).mono fun _ g2 hrun hkeep => ?_
    have hlinear : (Command.store name).isLinear = true := rfl
    obtain ⟨honward, hopen⟩ := (ends_run_onward hlinear hsb hr1 ⟨ha.grown, .inr ⟨new, ha⟩⟩).of_ok hrun
    obtain ⟨⟨-, old2, hs2⟩, -⟩ := (ends_run hr1 (.store name)).of_ok hrun
    obtain ⟨new2, ha2⟩ := ahead_of_atop hkeep honward
    obtain ⟨new2', hb2, -⟩ := hkeep.beside
    obtain rfl : new2' = new2 := append_cancel_left (hb2.live.symm.trans ha2.live)
    simp only [constructs, Prod.mk.injEq] at hopen
    obtain ⟨-, hbr2, hlo2, he2, htr2⟩ := hopen
    have htries := htr2.trans htr
    obtain ⟨x2, hf2⟩ := Follows.of_mem ha2 hb2 hgb.laid (hs2.mem_live (hs2.popTry htries).2.1.1) h.enter
    exact ⟨{ block with leaves, stage := .handler }, ⟨x2, hf2⟩, h.enter, hleaves, h.stack, hkeep.eq_zero,
      hbr2.trans (hbr.trans h.branches),
      (hlo2.trans hlo) ▸ h.loops, he2.trans (he.trans h.elseGuards), htries, hkeep.scopes⟩

variable (hl : b.code.Laid) (hg : Going c f? symbols g)
include hl hg

/-- Without a finalizer the block ends here. -/
lemma regular_endTry : Regular (endTry false) g fun _ g' => Kept inLoop narrowing b g' := by
  refine (h.regular_popTry _).bind ?_
  rintro t _ - ⟨ht, rfl⟩
  rw [ht]
  refine .modify ?_
  obtain ⟨⟨x, hf⟩, hout, -, hleaves⟩ := h.leavePart hl hg
  change Kept inLoop narrowing b ((({ g with tries := b.tries }.emitOpen (.tryLeave false)).restoreStack block.stack).linkAll
    (block.leaves ++ [g.next]))
  generalize ({ g with tries := b.tries } : Generator).emitOpen (.tryLeave false) = g1 at hf hout hleaves ⊢
  refine h.kept ((hf.restoreStack _).linkAll hl (fun j hj => (hleaves j hj).1) fun j hj => (hleaves j hj).2) ?_ ?_
  · rw [Sound.linkAll_eq]
    exact (items_replace _ _ _).trans h.stack
  · rw [outline_linkAll, outline_restoreStack, hout]

/-- The finalizer starts with the stack of the block. -/
lemma regular_beginFinalizer :
    Regular (endTry true) g fun _ g' => ∃ block', Protecting inLoop narrowing b block' g' := by
  refine (h.regular_popTry _).bind ?_
  rintro t _ - ⟨ht, rfl⟩
  rw [ht]
  obtain ⟨⟨x, hf⟩, hout, henter, hleaves⟩ := h.leavePart hl hg
  refine .modify ⟨{ block with leaves := block.leaves ++ [g.next], stage := .finalizer }, ?_⟩
  change Protecting inLoop narrowing b _
    { (({ g with tries := b.tries }.emitOpen (.tryLeave false)).restoreStack block.stack).defer (.finalizer block.enter) with
      tries := { block with leaves := block.leaves ++ [g.next], stage := .finalizer } ::
        ({ g with tries := b.tries }.emitOpen (.tryLeave false)).tries }
  generalize ({ g with tries := b.tries } : Generator).emitOpen (.tryLeave false) = g1 at hf hout henter hleaves ⊢
  have hf' := (hf.restoreStack block.stack).defer hl (l := .finalizer block.enter) rfl henter h.enter
  refine h.next (hf'.still rfl rfl rfl rfl rfl rfl) ((items_replace _ _ _).trans h.stack) ?_
    fun j hj => (hleaves j hj).2
  exact outline_openTry hout { block with leaves := block.leaves ++ [g.next], stage := .finalizer }

lemma regular_endFinalizer : Regular endFinalizer g fun _ g' => Kept inLoop narrowing b g' := by
  refine (h.regular_popTry _).bind ?_
  rintro t _ - ⟨ht, rfl⟩
  rw [ht]
  refine .modify ?_
  obtain ⟨x, hf⟩ := h.follows
  have hf0 : Follows b x { g with tries := b.tries } := hf.still rfl rfl rfl rfl rfl rfl
  have hout := outline_append ({ g with tries := b.tries } : Generator) { opcode := .finallyLeave }
  have hend := hf0.append hl { opcode := .finallyLeave }
  have hmem : ∀ j ∈ block.leaves,
      j ∈ (({ g with tries := b.tries } : Generator).append { opcode := .finallyLeave }).code.live := by
    intro j hj
    rw [live_append]
    exact mem_append_left _ ((h.mem_live hg).2 j hj)
  refine h.kept ((hend.linkAll hl hmem h.leaves).restoreStack _) ((items_replace _ _ _).trans h.stack) ?_
  rwa [outline_restoreStack, outline_linkAll]

end Protecting

/-! ### Leaving the method -/

/-- The end of a statement that leaves the method. -/
lemma kept_of_exit {x : Handle} {items : List ValueType} (hf : Follows b x g') (hi : items = b.stack.items)
    (hout : g'.outline = g.outline) (hc : g.constructs = b.constructs) (hs : ScopesKept narrowing b.scopes g.scopes) :
    Kept inLoop narrowing b (g'.restoreStack items) := by
  simp only [constructs, Prod.mk.injEq] at hc
  obtain ⟨-, hb, hlo, he, ht⟩ := hc
  obtain ⟨hb', hlo', he', ht', hs'⟩ := eq_of_outline hout
  exact .of_follows (hf.restoreStack items) ((items_replace _ _ _).trans hi) (hb'.trans hb)
    (.inl (hlo'.trans hlo)) (he'.trans he) (ht'.trans ht) (scopes_of_outline hout hs)

lemma regular_returnVoid (hl : g.code.Laid) : Regular (returnFrom false) g fun _ g' => Kept inLoop narrowing g g' := by
  refine .get ?_
  cases g.frame with
  | none => exact .refuse _
  | some frame =>
    refine .modify ?_
    dsimp only
    simp only [false_eq_true, if_false]
    split_ifs
    · refine kept_of_exit (((Follows.firstOp_dropN hl _ _ 0 (some .any)).append hl _)) rfl ?_ rfl (.refl _ _)
      rw [emit, outline_append, outline_op, outline_dropN]
    · refine kept_of_exit (Follows.first_dropN hl _ _) rfl ?_ rfl (.refl _ _)
      rw [emit, outline_append, outline_dropN]

lemma regular_returnValue (hl : b.code.Laid) (hp : PartOf narrowing b b 1 b g) :
    Regular (returnFrom true) g fun _ g' => Kept inLoop narrowing b g' := by
  obtain ⟨x, hf⟩ := hp.follows
  obtain ⟨t, hi⟩ := hp.top
  refine .get ?_
  cases g.frame with
  | none => exact .refuse _
  | some frame =>
    refine .modify ?_
    dsimp only
    simp only [if_true, Bool.not_true, Bool.and_false, Bool.false_eq_true, if_false]
    refine kept_of_exit ((hf.nipN hl _).append hl _) (congrArg tail hi) ?_ hp.constructs hp.atop.scopes
    rw [emit, outline_append, outline_nipN]

lemma kept_raise (hl : b.code.Laid) (hp : PartOf narrowing b b 1 b g) : Kept inLoop narrowing b g.raise := by
  obtain ⟨x, hf⟩ := hp.follows
  obtain ⟨t, hi⟩ := hp.top
  exact kept_of_exit (hf.append hl _) (congrArg tail hi) (outline_append _ _) hp.constructs hp.atop.scopes

end Generator

/-! ### All statements -/

namespace Statement

variable {body handler finalizer : Statement} {name : Option String}

/-- The body of a protected block. -/
lemma regular_protected (hbody : body.Balances inLoop narrowing) (hg : Going c f? symbols g)
    (hfit : after [.beginTry] g body.fits = true) (hord : ∀ cmd ∈ body.commands, cmd.Orderly symbols)
    (hopen : LoopOpen inLoop g) :
    Regular (runAll (.beginTry :: body.commands)) g fun _ g' => ∃ block, Protecting inLoop narrowing g block g' := by
  refine .cons (P := fun _ g' => Protecting inLoop narrowing g ⟨g.next, [], g.stack.items, .body⟩ g')
    (.modify (.opened hg.laid)) fun g1 hrun1 h1 => ?_
  rw [after_of_ok (by rw [runAll_singleton]; exact hrun1)] at hfit
  exact (hbody (hg.run hrun1) hfit hord (h1.loopOpen hopen)).mono fun _ g2 _ hk => ⟨_, h1.body hg.laid hk⟩

/-- The handler of a protected block. -/
lemma regular_handler (hhandler : handler.Balances inLoop narrowing)
    (h : Protecting inLoop narrowing b block g) (hgb : Going c f? symbols b) (hg : Going c f? symbols g)
    (hpush : (Command.beginHandler name).pushes g = true) (hfit : after [.beginHandler name] g handler.fits = true) (hord : ∀ cmd ∈ handler.commands, cmd.Orderly symbols)
    (hopen : LoopOpen inLoop b) : Regular (runAll (.beginHandler name :: handler.commands)) g fun _ g' =>
      ∃ block, Protecting inLoop narrowing b block g' := by
  refine .cons (h.regular_beginHandler hgb hg name hpush) ?_
  rintro g1 hrun1 ⟨block1, h1⟩
  rw [after_of_ok (by rw [runAll_singleton]; exact hrun1)] at hfit
  exact (hhandler (hg.run hrun1) hfit hord (h1.loopOpen hopen)).mono fun _ g2 _ hk => ⟨_, h1.body hgb.laid hk⟩

/-- The finalizer of a protected block, and the end of the block. -/
lemma regular_finalizer (hfin : finalizer.Balances inLoop narrowing)
    (h : Protecting inLoop narrowing b block g) (hgb : Going c f? symbols b) (hg : Going c f? symbols g)
    (hfit : after [.endTry true] g finalizer.fits = true) (hord : ∀ cmd ∈ finalizer.commands, cmd.Orderly symbols)
    (hopen : LoopOpen inLoop b) :
    Regular (runAll (.endTry true :: (finalizer.commands ++ [.endFinalizer]))) g fun _ g' => Kept inLoop narrowing b g' := by
  refine .cons (h.regular_beginFinalizer hgb.laid hg) ?_
  rintro g1 hrun1 ⟨block1, h1⟩
  rw [after_of_ok (by rw [runAll_singleton]; exact hrun1)] at hfit
  have hg1 := hg.run hrun1
  refine .append (hfin hg1 hfit hord (h1.loopOpen hopen)) fun g2 hrun2 hk => ?_
  exact .single ((h1.body hgb.laid hk).regular_endFinalizer hgb.laid (hg1.runAll hrun2))

lemma balances_tryExcept (hbody : body.Balances inLoop narrowing)
    (hhandler : handler.Balances inLoop narrowing) : (tryExcept body name handler).Balances inLoop narrowing := by
  intro c f? symbols g hg hfit hord hopen
  simp only [fits, after_and, after_append, ← after_cons, and_eq_true] at hfit
  rw [show (tryExcept body name handler).commands =
    (.beginTry :: body.commands) ++ ((.beginHandler name :: handler.commands) ++ [.endTry false]) by simp [commands]] at hord ⊢
  simp only [forall_mem_append, forall_mem_cons] at hord
  obtain ⟨⟨hfit, hpush⟩, hfit1⟩ := hfit
  refine .append (regular_protected hbody hg hfit hord.1.2 hopen) ?_
  rintro g1 hrun1 ⟨block1, h1⟩
  have hg1 := hg.runAll hrun1
  rw [after_of_ok hrun1] at hpush hfit1
  refine .append (regular_handler hhandler h1 hg hg1 hpush hfit1 hord.2.1.2 hopen) ?_
  rintro g2 hrun2 ⟨block2, h2⟩
  exact .single (h2.regular_endTry hg.laid (hg1.runAll hrun2))

lemma balances_tryFinally (hbody : body.Balances inLoop narrowing)
    (hfin : finalizer.Balances inLoop narrowing) : (tryFinally body finalizer).Balances inLoop narrowing := by
  intro c f? symbols g hg hfit hord hopen
  simp only [fits, after_and, after_append, ← after_cons, and_eq_true] at hfit
  rw [show (tryFinally body finalizer).commands =
    (.beginTry :: body.commands) ++ (.endTry true :: (finalizer.commands ++ [.endFinalizer])) by simp [commands]] at hord ⊢
  simp only [forall_mem_append, forall_mem_cons] at hord
  refine .append (regular_protected hbody hg hfit.1 hord.1.2 hopen) ?_
  rintro g1 hrun1 ⟨block1, h1⟩
  have hfit1 := hfit.2
  rw [after_of_ok hrun1] at hfit1
  exact regular_finalizer hfin h1 hg (hg.runAll hrun1) hfit1 hord.2.2.1 hopen

lemma balances_tryBoth (hbody : body.Balances inLoop narrowing) (hhandler : handler.Balances inLoop narrowing)
    (hfin : finalizer.Balances inLoop narrowing) : (tryBoth body name handler finalizer).Balances inLoop narrowing := by
  intro c f? symbols g hg hfit hord hopen
  simp only [fits, after_and, after_append, ← after_cons, and_eq_true] at hfit
  rw [show (tryBoth body name handler finalizer).commands =
    (.beginTry :: body.commands) ++ ((.beginHandler name :: handler.commands) ++
      (.endTry true :: (finalizer.commands ++ [.endFinalizer]))) by simp [commands]] at hord ⊢
  simp only [forall_mem_append, forall_mem_cons] at hord
  obtain ⟨⟨hfit, hpush⟩, hfit1⟩ := hfit
  refine .append (regular_protected hbody hg hfit hord.1.2 hopen) ?_
  rintro g1 hrun1 ⟨block1, h1⟩
  have hg1 := hg.runAll hrun1
  rw [after_of_ok hrun1] at hpush
  rw [after_of_ok hrun1, after_of_ok hrun1] at hfit1
  refine .append (regular_handler hhandler h1 hg hg1 hpush hfit1.1 hord.2.1.2 hopen) ?_
  rintro g2 hrun2 ⟨block2, h2⟩
  have hfit2 := hfit1.2
  rw [after_of_ok hrun2] at hfit2
  exact regular_finalizer hfin h2 hg (hg1.runAll hrun2) hfit2 hord.2.2.2.1 hopen

lemma balances_returnValue {value : List Command} (hvalue : keepsRegion narrowing value = true) :
    (returnValue value).Balances inLoop narrowing := by
  intro c f? symbols g hg hfit hord _
  simp only [commands, forall_mem_append] at hord
  exact .append (hg.part hfit hvalue hord.1) fun g1 _ hp => .single (regular_returnValue hg.laid hp)

lemma balances_raise {exception : List Command} (hexc : keepsRegion narrowing exception = true) :
    (raise exception).Balances inLoop narrowing := by
  intro c f? symbols g hg hfit hord _
  simp only [commands, forall_mem_append] at hord
  exact .append (hg.part hfit hexc hord.1) fun g1 _ hp => .single (.modify (kept_raise hg.laid hp))

/-- **Every nested statement keeps the stack and what is open.** -/
lemma balances (s : Statement) {inLoop narrowing : Bool} (hn : s.nested inLoop narrowing = true) :
    s.Balances inLoop narrowing := by
  induction s generalizing inLoop narrowing with
  | straight part => exact balances_straight hn
  | seq first second ih1 ih2 =>
    rw [nested, and_eq_true] at hn
    exact balances_seq (ih1 hn.1) (ih2 hn.2)
  | ifThen condition body ih =>
    rw [nested, and_eq_true] at hn
    exact balances_ifThen hn.1 (ih hn.2)
  | ifElse condition body other ih1 ih2 =>
    rw [nested, and_eq_true, and_eq_true] at hn
    exact balances_ifElse hn.1.1 (ih1 hn.1.2) (ih2 hn.2)
  | whileDo test body ih => exact balances_whileDo (ih hn)
  | whileElse test body other ih1 ih2 =>
    rw [nested, and_eq_true] at hn
    exact balances_whileElse (ih1 hn.1) (ih2 hn.2)
  | forDo collection target body ih =>
    rw [nested, and_eq_true] at hn
    exact balances_forDo hn.1 (ih hn.2)
  | forElse collection target body other ih1 ih2 =>
    rw [nested, and_eq_true, and_eq_true] at hn
    exact balances_forElse hn.1.1 (ih1 hn.1.2) (ih2 hn.2)
  | tryExcept body name handler ih1 ih2 =>
    rw [nested, and_eq_true] at hn
    exact balances_tryExcept (ih1 hn.1) (ih2 hn.2)
  | tryFinally body finalizer ih1 ih2 =>
    rw [nested, and_eq_true] at hn
    exact balances_tryFinally (ih1 hn.1) (ih2 hn.2)
  | tryBoth body name handler finalizer ih1 ih2 ih3 =>
    rw [nested, and_eq_true, and_eq_true] at hn
    exact balances_tryBoth (ih1 hn.1.1) (ih2 hn.1.2) (ih3 hn.2)
  | breakLoop =>
    obtain rfl : inLoop = true := hn
    intro c f? symbols g hg _ _ hopen
    exact .single (regular_breakLoop hg.laid hopen)
  | continueLoop =>
    obtain rfl : inLoop = true := hn
    intro c f? symbols g hg _ _ hopen
    exact .single (regular_continueLoop hg.laid hopen)
  | returnVoid =>
    intro c f? symbols g hg _ _ _
    exact .single (regular_returnVoid hg.laid)
  | returnValue value => exact balances_returnValue hn
  | raise exception => exact balances_raise hn

/-- A method with a list and two numbers. -/
def listAndNumbers : SymbolTable where
  methods := .ofList [("main", { locals := .ofList [("xs", .list .int), ("x", .int), ("y", .int)], returns := .int })]

/-- A loop over a list that is left early or goes on, with a loop and a protected block in its body. -/
def nestedSearch : Statement :=
  forElse [.load "xs"] [.store "x"]
    (seq
      (ifElse [.load "x"]
        (seq (straight [.narrow "y" .nonNegInt, .load "xs", .builtin .len, .store "y"]) continueLoop)
        breakLoop)
      (whileDo [.load "y"]
        (tryBoth (straight [.load "x", .store "y"]) (some "y") (raise [.load "y"]) (ifThen [.load "x"] returnVoid))))
    (returnValue [.load "y"])

end Statement

end NeoScript
