import NeoScript.Proofs.Generator.Items
import NeoScript.Proofs.Statement.Branches

/-!
# Loops keep the stack

A loop remembers the stack of each round, below which lies the stack before the loop. While its body is under way it may
get exits, which are all newer than the loop. When it is closed, that stack is restored, the items that the loop keeps
are dropped, and the exits are linked; an `else` part is open then until it is closed by itself.
-/

namespace NeoScript

open Generator Command List ShadowStack Bool

variable {a b c g g' : Generator} {f? : Option String} {symbols : SymbolTable} {inLoop narrowing : Bool} {loop : OpenLoop}
  {guards : List (Option Handle)}

namespace Generator

/-! ### Leaving a loop early -/

/-- The innermost loop is there, and no protected block around it was closed. -/
lemma regular_innerLoop (exit : LoopExit) (ho : LoopOpen true g) :
    Regular (innerLoop exit) g fun e g' => g' = g ∧ ∃ outer, g.loops = e.1 :: outer := by
  refine .get ?_
  cases hl : g.loops with
  | nil => exact .refuse _
  | cons loop outer =>
    have hdepth : ¬ g.tries.length < loop.tryDepth := Nat.not_lt.2 (ho rfl loop (by rw [hl]; rfl))
    dsimp only
    rw [if_neg hdepth]
    exact .pure ⟨rfl, outer, rfl⟩

lemma modifyLoop_of_loops {outer : List OpenLoop} (f : OpenLoop → OpenLoop) (h : g.loops = loop :: outer) :
    g.modifyLoop f = { g with loops := f loop :: outer } := by
  rw [modifyLoop, h]

lemma regular_continueLoop (hl : g.code.Laid) (ho : LoopOpen true g) :
    Regular continueLoop g fun _ g' => Kept true narrowing g g' := by
  refine (regular_innerLoop _ ho).bind ?_
  rintro ⟨loop, levels⟩ g1 - ⟨hg, outer, hloops⟩
  subst hg
  refine .modify ?_
  obtain ⟨hf, hle⟩ := Follows.first_exitJump hl levels
  have hstack := stack_of_context (context_exitJump g1 levels)
  obtain ⟨hb, hlo, he, ht, hs⟩ := eq_of_outline (outline_exitJump g1 levels)
  change Kept true narrowing g1 ((g1.exitJump levels).1.modifyLoop fun loop =>
    { loop with continues := loop.continues ++ [(g1.exitJump levels).2] })
  rw [modifyLoop_of_loops _ (hlo.trans hloops)]
  generalize g1.exitJump levels = e at hf hle hstack hb hlo he ht hs
  refine Kept.of_follows (hf.still rfl rfl rfl rfl rfl rfl) (congrArg _ hstack) hb ?_ he ht ?_
  · refine .inr ⟨rfl, loop, outer, [e.2], [], hloops, ?_, ?_, by simp⟩
    · simp
    · intro j hj
      exact mem_singleton.1 hj ▸ hle
  · change ScopesKept narrowing g1.scopes e.1.scopes
    rw [hs]
    exact .refl _ _

lemma regular_breakLoop (hl : g.code.Laid) (ho : LoopOpen true g) :
    Regular breakLoop g fun _ g' => Kept true narrowing g g' := by
  refine (regular_innerLoop _ ho).bind ?_
  rintro ⟨loop, levels⟩ g1 - ⟨hg, outer, hloops⟩
  subst hg
  refine .modify ?_
  have hflag := nextHandle_dropN g1 loop.kind.kept
  have hf := Follows.firstOp_dropN hl loop.kind.kept (.pushBool true) 0 (some .bool)
  have hout : ((g1.dropN loop.kind.kept).op (.pushBool true) 0 (some .bool)).outline = g1.outline := by
    rw [outline_op, outline_dropN]
  change Kept true narrowing g1
    (((((g1.dropN loop.kind.kept).op (.pushBool true) 0 (some .bool)).exitJump levels).1.restoreStack g1.stack.items).modifyLoop
      fun l => { l with breaks := l.breaks ++ [⟨(g1.dropN loop.kind.kept).next,
        (((g1.dropN loop.kind.kept).op (.pushBool true) 0 (some .bool)).exitJump levels).2⟩] })
  generalize (g1.dropN loop.kind.kept).op (.pushBool true) 0 (some .bool) = g2 at hf hout
  generalize hflag' : (g1.dropN loop.kind.kept).next = flag
  have hle : g1.code.nextHandle ≤ (g2.exitJump levels).2 := (hf.leaveTries hl (levels - 1)).grown
  have hf' := (hf.exitJump hl levels).restoreStack g1.stack.items
  obtain ⟨hb, hlo, he, ht, hs⟩ := eq_of_outline ((outline_exitJump g2 levels).trans hout)
  generalize g2.exitJump levels = e at hf' hle hb hlo he ht hs
  rw [modifyLoop_of_loops (g := e.1.restoreStack g1.stack.items) _ (hlo.trans hloops)]
  refine Kept.of_follows (hf'.still rfl rfl rfl rfl rfl rfl) (items_replace _ _ _) hb ?_ he ht ?_
  · refine .inr ⟨rfl, loop, outer, [], [⟨flag, e.2⟩], hloops, ?_, by simp, ?_⟩
    · simp
    · intro k hk
      rw [mem_singleton.1 hk]
      exact ⟨hflag' ▸ hflag, hle⟩
  · change ScopesKept narrowing g1.scopes e.1.scopes
    rw [hs]
    exact .refl _ _

/-! ### A loop under way -/

/-- A loop that was begun on the state `b`, with its body under way. -/
structure Looping (narrowing : Bool) (b : Generator) (loop : OpenLoop) (g : Generator) : Prop where
  follows : ∃ x, Follows b x g ∧ x ≤ loop.startJump
  fresh : b.code.nextHandle ≤ loop.startJump
  stack : loop.stack.drop loop.kind.kept = b.stack.items
  depth : loop.tryDepth = b.tries.length
  continues : ∀ j ∈ loop.continues, b.code.nextHandle ≤ j
  breaks : ∀ e ∈ loop.breaks, b.code.nextHandle ≤ e.flag ∧ b.code.nextHandle ≤ e.jump
  loops : g.loops = loop :: b.loops
  branches : g.branches = b.branches
  elseGuards : g.elseGuards = b.elseGuards
  tries : g.tries = b.tries
  scopes : ∃ scope outer, g.scopes = scope :: outer ∧ ScopesKept narrowing b.scopes outer

/-- A loop that was begun on the state `b` is closed, up to its `else` part. -/
structure Leaving (inLoop narrowing : Bool) (b : Generator) (guards : List (Option Handle)) (g : Generator) : Prop where
  follows : ∃ x, Follows b x g
  fresh : ∀ j, some j ∈ guards → b.code.nextHandle ≤ j
  items : g.stack.items = b.stack.items
  branches : g.branches = b.branches
  loops : LoopsKept inLoop b.code.nextHandle b.loops g.loops
  elseGuards : g.elseGuards = guards ++ b.elseGuards
  tries : g.tries = b.tries
  scopes : ScopesKept narrowing b.scopes g.scopes

namespace Looping

variable (h : Looping narrowing b loop g)
include h

lemma loopOpen : LoopOpen true g := by
  intro _ l hl
  rw [h.loops] at hl
  obtain rfl := Option.some.inj hl
  exact Nat.le_of_eq (h.depth.trans (congrArg List.length h.tries.symm))

lemma regions (hs : ScopesKept true g.scopes g'.scopes) :
    ∃ scope outer, g'.scopes = scope :: outer ∧ ScopesKept narrowing b.scopes outer := by
  obtain ⟨scope, outer, hscope, hscopes⟩ := h.scopes
  rw [hscope] at hs
  obtain ⟨scope', hs'⟩ := hs.outer
  exact ⟨scope', outer, hs', hscopes⟩

/-- Straight code of the loop. -/
lemma straight {x : Handle} (hf : Follows b x g') (hx : x ≤ loop.startJump)
    (hc : g'.constructs = g.constructs) (hs : ScopesKept true g.scopes g'.scopes) : Looping narrowing b loop g' := by
  simp only [constructs, Prod.mk.injEq] at hc
  obtain ⟨-, hb, hlo, he, ht⟩ := hc
  exact ⟨⟨x, hf, hx⟩, h.fresh, h.stack, h.depth, h.continues, h.breaks, hlo.trans h.loops, hb.trans h.branches,
    he.trans h.elseGuards, ht.trans h.tries, h.regions hs⟩

/-- The body may add exits. -/
lemma body (hl : b.code.Laid) (hk : Kept true true g g') :
    ∃ continues breaks, Looping narrowing b { loop with continues, breaks } g' := by
  obtain ⟨x, hf, hx⟩ := h.follows
  have hregions := h.regions hk.scopes
  rcases hk.loops with heq | ⟨-, l, os, cs, bs, hloops, hloops', hcs, hbs⟩
  · exact ⟨loop.continues, loop.breaks, ⟨x, hk.follows hf hl, hx⟩, h.fresh, h.stack, h.depth, h.continues, h.breaks,
      heq.trans h.loops, hk.branches.trans h.branches, hk.elseGuards.trans h.elseGuards, hk.tries.trans h.tries, hregions⟩
  · rw [h.loops] at hloops
    obtain ⟨rfl, rfl⟩ := List.cons.inj hloops
    refine ⟨loop.continues ++ cs, loop.breaks ++ bs, ⟨x, hk.follows hf hl, hx⟩, h.fresh, h.stack, h.depth, ?_, ?_, hloops',
      hk.branches.trans h.branches, hk.elseGuards.trans h.elseGuards, hk.tries.trans h.tries, hregions⟩
    · intro j hj
      exact (mem_append.1 hj).elim (h.continues j) fun hj => Nat.le_trans hf.grown (hcs j hj)
    · intro e he
      rcases mem_append.1 he with he | he
      · exact h.breaks e he
      · exact ⟨Nat.le_trans hf.grown (hbs e he).1, Nat.le_trans hf.grown (hbs e he).2⟩

/-- The end of a loop, once its test or its advance is in place. -/
lemma finish {log log' : List (Handle × String)} {Y : Handle → Prop} {old old' : List Handle} (hb : Sound c f? log' Y old' b)
    (hs : Sound c f? log (fun x => x ∈ loop.breaks.map Break.jump) old g') (hframe : g'.frame.isSome)
    (hl : LoopSound old g'.code loop) (hexits : ∀ h ∈ loop.breaks.map Break.jump, h ∈ old ∧ g'.code.role? h = some .leap)
    (hf : ∀ x, Follows b x g → x ≤ loop.startJump → Follows b x g')
    (hout : g'.outline = { g with loops := b.loops }.outline) (hasElse : Bool) (inLoop : Bool) :
    ∃ guards, guards.length = hasElse.toNat ∧ Leaving inLoop narrowing b guards (g'.finishLoop loop hasElse) := by
  obtain ⟨x, hf0, hx⟩ := h.follows
  obtain ⟨scope, outer, hscope, hscopes⟩ := h.scopes
  have hf' := hf x hf0 hx
  have hfin := hf'.finishLoop hb hs hframe hl hexits
    (fun e he => ⟨(h.breaks e he).1, fun heq => Nat.lt_irrefl _ (Nat.lt_of_le_of_lt (heq ▸ hx) (hl.flags e he).1)⟩)
    (fun j hj => by
      obtain ⟨e, he, rfl⟩ := mem_map.1 hj
      exact (h.breaks e he).2) hasElse
  have hitems : (g'.finishLoop loop hasElse).stack.items = b.stack.items :=
    (items_replace _ _ _).trans h.stack
  obtain ⟨all, hfinish, hall⟩ := outline_finishLoop g' loop hasElse
  obtain ⟨hbranches, hloops, hguards, htries, hregions⟩ := eq_of_outline hout
  obtain ⟨hbranches', hloops', hguards', htries', hregions'⟩ := eq_of_outline hfinish
  have hkept : ScopesKept narrowing b.scopes (g'.finishLoop loop hasElse).scopes := by
    rw [hregions']
    change ScopesKept narrowing b.scopes g'.scopes.tail
    rw [hregions]
    change ScopesKept narrowing b.scopes g.scopes.tail
    rwa [hscope]
  have hleave : ∀ guards, all = guards ++ b.elseGuards → (∀ j, some j ∈ guards → b.code.nextHandle ≤ j) →
      Leaving inLoop narrowing b guards (g'.finishLoop loop hasElse) := fun guards hg hfresh =>
    ⟨⟨x, hfin⟩, hfresh, hitems, hbranches'.trans (hbranches.trans h.branches), .inl (hloops'.trans hloops),
      hguards'.trans hg, htries'.trans (htries.trans h.tries), hkept⟩
  cases hasElse with
  | true =>
    obtain ⟨o, hgo, hfresh⟩ := hall
    refine ⟨[o], rfl, hleave [o] ?_ fun j hj => Nat.le_trans hf'.grown (hfresh j (mem_singleton.1 hj).symm)⟩
    rw [hgo, hguards]
    exact congrArg (o :: ·) h.elseGuards
  | false => exact ⟨[], rfl, hleave [] (hall.trans (hguards.trans h.elseGuards)) nofun⟩

end Looping

/-- A loop without `else` part. -/
lemma Kept.of_leaving (h : ∃ guards, guards.length = 0 ∧ Leaving inLoop narrowing b guards g) :
    Kept inLoop narrowing b g := by
  obtain ⟨guards, hlen, h⟩ := h
  obtain rfl := length_eq_zero_iff.1 hlen
  obtain ⟨x, hf⟩ := h.follows
  exact .of_follows hf h.items h.branches h.loops h.elseGuards h.tries h.scopes

namespace Leaving

/-- The `else` part. -/
lemma body (h : Leaving inLoop narrowing b guards g) (hl : b.code.Laid) (hk : Kept inLoop narrowing g g') :
    Leaving inLoop narrowing b guards g' := by
  obtain ⟨x, hf⟩ := h.follows
  exact ⟨⟨x, hk.follows hf hl⟩, h.fresh, hk.items.trans h.items, hk.branches.trans h.branches,
    h.loops.trans hf.grown hk.loops, hk.elseGuards.trans h.elseGuards, hk.tries.trans h.tries, h.scopes.trans hk.scopes⟩

lemma regular_endLoopElse (h : Leaving inLoop narrowing b guards g) (hguards : guards.length = 1)
    (hg : Going c f? symbols g) (hl : b.code.Laid) : Regular endLoopElse g fun _ g' => Kept inLoop narrowing b g' := by
  obtain ⟨o, rfl⟩ := length_eq_one_iff.1 hguards
  obtain ⟨x, hf⟩ := h.follows
  have helse : g.elseGuards = o :: b.elseGuards := h.elseGuards
  refine .get ?_
  rw [helse]
  refine .modify ?_
  cases o with
  | none =>
    exact .of_follows (hf.still rfl rfl rfl rfl rfl rfl) h.items h.branches h.loops rfl h.tries h.scopes
  | some j =>
    have hlive : j ∈ g.code.live :=
      hg.mem_live (mem_held.2 (.inr (.inr (.inl (by rw [helse]; exact mem_cons_self)))))
    have hlinked := hf.linkNext hl hlive (h.fresh j mem_cons_self)
    exact .of_follows (hlinked.still rfl rfl rfl rfl rfl rfl) h.items h.branches h.loops rfl h.tries h.scopes

end Leaving

lemma scopes_of_outline (h : g'.outline = g.outline) (hs : ScopesKept narrowing b.scopes g.scopes) :
    ScopesKept narrowing b.scopes g'.scopes := by
  rwa [show g'.scopes = g.scopes from congrArg Prod.snd h]

/-- Opening a loop. -/
lemma looping_openLoop {kind : LoopKind} {x start : Handle} (hf : Follows b x g) (hx : x ≤ start)
    (hle : b.code.nextHandle ≤ start) (hstack : g.stack.items.drop kind.kept = b.stack.items)
    (hc : g.constructs = b.constructs) (hs : ScopesKept narrowing b.scopes g.scopes) :
    Looping narrowing b ⟨kind, start, [], [], b.tries.length, g.stack.items⟩ (g.openLoop kind start) := by
  simp only [constructs, Prod.mk.injEq] at hc
  obtain ⟨-, hb, hlo, he, ht⟩ := hc
  refine ⟨⟨x, hf.still rfl rfl rfl rfl rfl rfl, hx⟩, hle, hstack, rfl, by simp, by simp, ?_, hb, he, ht, {}, g.scopes, rfl, hs⟩
  rw [← ht, ← hlo]
  rfl

/-! ### Conditional loops -/

/-- The test of a conditional loop comes next. -/
lemma looping_beginWhile (hl : b.code.Laid) :
    Looping narrowing b ⟨.conditional none, b.next, [], [], b.tries.length, b.stack.items⟩ b.beginWhile := by
  have hstack : (b.append (.unaimed .always)).stack = b.stack := stack_of_context (context_append b _)
  have hout := outline_append b (.unaimed .always)
  have hlive : b.next ∈ (b.append (.unaimed .always)).code.live := by
    rw [live_append]
    exact mem_append_right _ mem_cons_self
  have hf := (Follows.first hl (.unaimed .always)).linkNext hl hlive (Nat.le_refl _)
  have hitems : ((b.append (.unaimed .always)).linkNext b.next).stack.items = b.stack.items :=
    congrArg items hstack
  have hscopes : ScopesKept narrowing b.scopes ((b.append (.unaimed .always)).linkNext b.next).scopes :=
    scopes_of_outline (g := b) hout (.refl _ _)
  have hdrop : ((b.append (.unaimed .always)).linkNext b.next).stack.items.drop
      (LoopKind.conditional none).kept = b.stack.items := hitems
  have hopen := looping_openLoop hf (Nat.le_refl _) (Nat.le_refl _) hdrop (congrArg Prod.fst hout) hscopes
  rwa [hitems] at hopen

/-- The test is complete. -/
lemma Looping.regular_beginWhileBody {start : Handle} {stack : List ValueType} {depth : Nat}
    (h : Looping narrowing b ⟨.conditional none, start, [], [], depth, stack⟩ g) (hl : b.code.Laid) :
    Regular beginWhileBody g fun _ g' => (∀ a y, a.code.Laid → Follows a y g → Follows a y g') ∧
      ∃ j, b.code.nextHandle ≤ j ∧ Looping narrowing b ⟨.conditional (some j), start, [], [], depth, stack⟩ g' := by
  obtain ⟨x, hf, hx⟩ := h.follows
  refine .get ?_
  rw [h.loops]
  refine .modify ?_
  have hout := outline_append g (.unaimed .ifTrue)
  obtain ⟨hb, hlo, he, ht, hs⟩ := eq_of_outline hout
  have hlive : g.next ∈ (g.append (.unaimed .ifTrue)).code.live := by
    rw [live_append]
    exact mem_append_right _ mem_cons_self
  have hfollow : ∀ {a : Generator} {y : Handle}, a.code.Laid → Follows a y g →
      Follows a y (((g.emitJump .ifTrue).track g.next 1 none).linkNext g.next) := fun hl hf =>
    (hf.track hl (.unaimed .ifTrue) 1 none).linkNext hl hlive hf.grown
  dsimp only
  rw [modifyLoop_of_loops (g := ((g.emitJump .ifTrue).track g.next 1 none).linkNext g.next) _ (hlo.trans h.loops)]
  refine ⟨fun a y hl hf => (hfollow hl hf).still rfl rfl rfl rfl rfl rfl, g.next, hf.grown, ?_⟩
  exact ⟨⟨x, (hfollow hl hf).still rfl rfl rfl rfl rfl rfl, hx⟩, h.fresh, h.stack, h.depth, h.continues, h.breaks, rfl,
    hb.trans h.branches, he.trans h.elseGuards, ht.trans h.tries, hs ▸ h.scopes⟩

/-- The end of a conditional loop whose test starts with `test`. -/
lemma Looping.regular_endWhile {test j : Handle} (h : Looping narrowing b loop g) (hgb : Going c f? symbols b)
    (hg : Going c f? symbols g) (hk : loop.kind = .conditional (some j)) (hj : b.code.nextHandle ≤ j)
    (ht : g.code.target? loop.startJump = some (.code test)) (htest : loop.startJump < test) (hasElse inLoop : Bool) :
    Regular (endWhile hasElse) g fun _ g' => ∃ guards, guards.length = hasElse.toNat ∧
      Leaving inLoop narrowing b guards g' := by
  obtain ⟨-, log', -, old', hsb⟩ := hgb
  obtain ⟨-, log, hframe, old, hs⟩ := hg
  obtain ⟨hpop, hloop, hheld⟩ := hs.popLoop h.loops
  obtain ⟨hm, hhead⟩ := hpop.target_of_leap hloop.start.1 hloop.start.2 ht
  obtain ⟨hjm, hjr⟩ := hloop.closing j hk
  obtain ⟨old0, hs0, hg0, -, -⟩ := hpop.closeTest hm hhead hjm hjr
  obtain ⟨old1, hs1, hg1⟩ := hs.joinTest h.loops hk ht
  have hcont : ∀ x ∈ loop.continues, x ∈ loop.held := fun x hx => by simp [OpenLoop.held, hk, hx]
  obtain ⟨hloop1, hexits⟩ := hs.left_grows h.loops hg1
  refine .get (.modify_bind ?_)
  rw [show g.popLoop = { g with loops := b.loops } by rw [popLoop, h.loops]; rfl, h.loops, head?_cons]
  refine .get ?_
  simp only [hk, ht]
  refine .modify (h.finish hsb hs1 (hg1.isSome hframe) hloop1 hexits (fun x hf hx => ?_) ?_ hasElse inLoop)
  · have hf0 : Follows b x { g with loops := b.loops } := hf.still rfl rfl rfl rfl rfl rfl
    have hne : x ≠ test := fun heq => Nat.lt_irrefl _ (Nat.lt_of_le_of_lt (heq ▸ hx) htest)
    have hclosed := hf0.closeTest hsb.laid (hs.mem_live hm) (Nat.le_trans h.fresh (Nat.le_of_lt htest)) hne
      (hs.mem_live hjm) hj hs0.laid
    exact hclosed.pointAll hsb.laid (fun k hk => hs0.mem_live (hg0.leap (hheld k (hcont k hk))).1) h.continues test
  · exact outline_of_context _ ((context_pointAll _ _ _).trans (context_closeTest _ _ _))

end Generator

namespace Statement

variable {test : List Command} {body : Statement}

/-- A conditional loop up to its end. -/
lemma regular_while {hasElse : Bool} (hbody : body.Balances true true) (hg : Going c f? symbols g)
    (hfit : (whileDo test body).fits g = true) (hord : ∀ cmd ∈ (whileDo test body).commands, cmd.Orderly symbols) :
    Regular (runAll (.beginWhile :: (test ++ .beginWhileBody :: (body.commands ++ [.endWhile hasElse])))) g fun _ g' =>
      ∃ guards, guards.length = hasElse.toNat ∧ Leaving inLoop narrowing g guards g' := by
  simp only [commands, forall_mem_append, forall_mem_cons] at hord
  refine .cons (P := fun _ g' => g' = g.beginWhile) (.modify rfl) ?_
  rintro g1 hrun1 rfl
  have hg1 := hg.run hrun1
  have h1 : Looping narrowing g _ g.beginWhile := looping_beginWhile hg.laid
  simp only [fits] at hfit
  rw [after_of_ok (by rw [runAll_singleton]; exact hrun1), and_eq_true] at hfit
  have hregion : keepsRegion true test = true := rfl
  refine .append (hg1.part hfit.1 hregion hord.2.1) fun g2 hrun2 hp => ?_
  obtain ⟨y, hy⟩ := hp.follows
  obtain ⟨x, hf1, hx⟩ := h1.follows
  obtain ⟨new, hnew, ha, hbeside⟩ := id hy
  have h2 := h1.straight (hf1.onto hg.laid ha hbeside) hx hp.constructs hp.atop.scopes
  refine .cons (h2.regular_beginWhileBody hg.laid) ?_
  rintro g3 hrun3 ⟨hfollow, j, hj, h3⟩
  have hg3 := (hg1.runAll hrun2).run hrun3
  have hy3 := hfollow _ _ hg1.laid hy
  have hfit3 := hfit.2
  rw [after_of_ok (runAll_concat_ok hrun2 hrun3)] at hfit3
  refine .append (hbody hg3 hfit3 hord.2.2.2.1 h3.loopOpen) fun g4 hrun4 hk4 => ?_
  obtain ⟨continues, breaks, h4⟩ := h3.body hg.laid hk4
  -- The first jump was pending when the test began, so it leads to the test.
  have hpending : Link.jump g.next ∈ g.beginWhile.pending := by
    change Link.jump g.next ∈ (g.append _).pending ++ [.jump g.next]
    exact mem_append_right _ mem_cons_self
  obtain ⟨-, log1, -, old1, hs1⟩ := id hg1
  have htarget := (hk4.follows hy3 hg1.laid).target?_of_pending hs1 hpending
  have hlt : g.next < y := by
    have hnext : g.beginWhile.code.nextHandle = g.code.nextHandle + 1 := nextHandle_append g _
    exact Nat.lt_of_lt_of_le (hnext ▸ Nat.lt_succ_self _) hy.fresh
  exact .single (h4.regular_endWhile hg (hg3.runAll hrun4) rfl hj htarget hlt hasElse inLoop)

lemma balances_whileDo (hbody : body.Balances true true) : (whileDo test body).Balances inLoop narrowing := by
  intro c f? symbols g hg hfit hord _
  have hloop : Regular (runAll (whileDo test body).commands) g fun _ g' =>
      ∃ guards, guards.length = 0 ∧ Leaving inLoop narrowing g guards g' := regular_while hbody hg hfit hord
  exact hloop.mono fun _ _ _ h => .of_leaving h

/-- The `else` part of a loop and its end. -/
lemma regular_other {cs : List Command} {other : Statement} (hother : other.Balances inLoop narrowing)
    (hg : Going c f? symbols g) (hopen : LoopOpen inLoop g)
    (hloop : Regular (runAll cs) g fun _ g' => ∃ guards, guards.length = 1 ∧ Leaving inLoop narrowing g guards g')
    (hfit : after cs g other.fits = true) (hord : ∀ cmd ∈ other.commands, cmd.Orderly symbols) :
    Regular (runAll (cs ++ (other.commands ++ [.endLoopElse]))) g fun _ g' => Kept inLoop narrowing g g' := by
  refine .append hloop ?_
  rintro g1 hrun1 ⟨guards, hlen, h1⟩
  rw [after_of_ok hrun1] at hfit
  have hg1 := hg.runAll hrun1
  refine .append (hother hg1 hfit hord (h1.loops.loopOpen [] h1.tries hopen)) fun g2 hrun2 hk => ?_
  exact .single ((h1.body hg.laid hk).regular_endLoopElse hlen (hg1.runAll hrun2) hg.laid)

lemma fits_whileElse (test : List Command) (body other : Statement) (g : Generator) :
    (whileElse test body other).fits g = ((whileDo test body).fits g &&
      after (.beginWhile :: (test ++ .beginWhileBody :: (body.commands ++ [.endWhile true]))) g other.fits) := by
  rw [show Command.beginWhile :: (test ++ Command.beginWhileBody :: (body.commands ++ [.endWhile true])) =
    [.beginWhile] ++ ((test ++ [.beginWhileBody]) ++ (body.commands ++ [.endWhile true])) by simp]
  simp only [fits, after_and, after_append [.beginWhile], after_append (test ++ [.beginWhileBody]), Bool.and_assoc]

lemma commands_whileElse (test : List Command) (body other : Statement) : (whileElse test body other).commands =
    (.beginWhile :: (test ++ .beginWhileBody :: (body.commands ++ [.endWhile true]))) ++ (other.commands ++ [.endLoopElse]) := by
  simp [commands]

lemma balances_whileElse {other : Statement} (hbody : body.Balances true true)
    (hother : other.Balances inLoop narrowing) : (whileElse test body other).Balances inLoop narrowing := by
  intro c f? symbols g hg hfit hord hopen
  rw [fits_whileElse, and_eq_true] at hfit
  have hord' : ∀ cmd ∈ (whileDo test body).commands, cmd.Orderly symbols := by
    simp only [commands, forall_mem_append, forall_mem_cons] at hord ⊢
    exact ⟨hord.1, hord.2.1, hord.2.2.1, hord.2.2.2.1, trivial, by simp⟩
  rw [commands_whileElse] at hord ⊢
  simp only [forall_mem_append] at hord
  exact regular_other hother hg hopen (regular_while hbody hg hfit.1 hord') hfit.2 hord.2.1

end Statement

/-! ### Loops over a collection -/

namespace Generator

variable {x : Handle}

/-- A loop over a collection has just been opened on the state `a`: the first item lies on the stack of the round. -/
structure Entered (narrowing : Bool) (a b : Generator) (loop : OpenLoop) (g : Generator) : Prop where
  looping : Looping narrowing b loop g
  item : ∃ t, g.stack.items = t :: loop.stack
  kind : ∃ d, loop.startJump < d ∧ (loop.kind = .indexed d ∨ loop.kind = .iterated d)
  behind : ∃ y, Follows a y g
  start : a.code.nextHandle ≤ loop.startJump

/-- Opening a loop over a collection in the state `g1`, behind the first jump and what fetches an item. -/
lemma entered_fetch {k : Handle → LoopKind} {y : Handle} {g1 : Generator} (hf : Follows b x g) (hf1 : Follows b x g1)
    (hfa : Follows a y g1) (hctx : g1.context = g.context)
    (hstack : g.stack.items.drop (k (g.emitJump .always).next).kept = b.stack.items) (hc : g.constructs = b.constructs)
    (hs : ScopesKept narrowing b.scopes g.scopes) (hk : ∀ d, k d = .indexed d ∨ k d = .iterated d)
    (hstart : a.code.nextHandle ≤ g.next) (t : ValueType) :
    ∃ loop, Entered narrowing a b loop ((g1.openLoop (k (g.emitJump .always).next) g.next).pushType t) := by
  have hlt : x < g.next := hf.laid.lt_next hf.mem_live
  have hd : g.next < (g.emitJump .always).next := Nat.lt_of_lt_of_eq (Nat.lt_succ_self _) (nextHandle_append g _).symm
  have hout := outline_of_context _ hctx
  rw [← stack_of_context hctx] at hstack
  have hopen := looping_openLoop hf1 (Nat.le_of_lt hlt) hf.grown hstack ((congrArg Prod.fst hout).trans hc)
    (scopes_of_outline hout hs)
  generalize k (g.emitJump .always).next = kind, hk (g.emitJump .always).next = hkind at *
  have hf' : Follows b x (g1.openLoop kind g.next) := hf1.still rfl rfl rfl rfl rfl rfl
  have hfa' : Follows a y (g1.openLoop kind g.next) := hfa.still rfl rfl rfl rfl rfl rfl
  exact ⟨_, hopen.straight (hf'.pushType t) (Nat.le_of_lt hlt) rfl (.refl _ _), ⟨t, items_push _ _ _⟩, ⟨_, hd, hkind⟩,
    ⟨y, hfa'.pushType t⟩, hstart⟩

lemma entered_beginIndexed {y : Handle} {u : ValueType} (hl : b.code.Laid) (hla : a.code.Laid) (hf : Follows b x g)
    (hi : g.stack.items = u :: b.stack.items) (hc : g.constructs = b.constructs)
    (hs : ScopesKept narrowing b.scopes g.scopes) (hfa : Follows a y (g.op (.push 0) 0 (some .nonNegInt)))
    (collection : ValueType) : ∃ loop, Entered narrowing a b loop (g.beginIndexed collection) := by
  have hf1 := hf.op hl (.push 0) 0 (some .nonNegInt)
  have hi1 := (items_op g (.push 0) 0 (some .nonNegInt)).trans (congrArg (ValueType.nonNegInt :: ·) hi)
  have hout := outline_op g (.push 0) 0 (some .nonNegInt)
  exact entered_fetch (k := .indexed) hf1 ((hf1.append hl _).emitSnippet hl _) ((hfa.append hla _).emitSnippet hla _)
    ((Sound.context_emitSnippet _ _).trans (context_append _ _)) (congrArg (List.drop 2) hi1)
    ((congrArg Prod.fst hout).trans hc) (scopes_of_outline hout hs) (fun _ => .inl rfl) hfa.grown _

lemma entered_beginIterated {u : ValueType} (hl : b.code.Laid) (hf : Follows b x g)
    (hi : g.stack.items = u :: b.stack.items) (hc : g.constructs = b.constructs)
    (hs : ScopesKept narrowing b.scopes g.scopes) (item : ValueType) :
    ∃ loop, Entered narrowing g b loop (g.beginIterated item) := by
  change ∃ loop, Entered narrowing g b loop
    (((((g.emitJump .always).emit .dup).emitData .syscall (Service.operand .iteratorValue)).openLoop
      (.iterated (g.emitJump .always).next) g.next).pushType item)
  exact entered_fetch (k := .iterated) hf (((hf.append hl _).append hl _).append hl _)
    (((Follows.first hf.laid _).append hf.laid _).append hf.laid _)
    ((context_append _ _).trans ((context_append _ _).trans (context_append _ _))) (congrArg (List.drop 1) hi) hc hs
    (fun _ => .inr rfl) (Nat.le_refl _) item

lemma regular_beginFor (hl : b.code.Laid) (hp : PartOf narrowing b b 1 b g) :
    Regular beginFor g fun _ g' => ∃ loop, Entered narrowing g b loop g' := by
  obtain ⟨x, hf⟩ := hp.follows
  obtain ⟨u, hi⟩ := hp.top
  refine .get ?_
  split
  · next key value _ =>
    have hout := outline_op g .keys 1 (some (.list key))
    have hi1 : (g.op .keys 1 (some (.list key))).stack.items = .list key :: b.stack.items := by rw [items_op, hi]; rfl
    exact .modify (entered_beginIndexed hl hf.laid (hf.op hl .keys 1 (some (.list key))) hi1
      ((congrArg Prod.fst hout).trans hp.constructs) (scopes_of_outline hout hp.atop.scopes)
      ((Follows.firstOp hf.laid .keys 1 _).op hf.laid _ _ _) _)
  · exact .modify (entered_beginIterated hl hf hi hp.constructs hp.atop.scopes _)
  · split_ifs
    · exact .modify (entered_beginIndexed hl hf.laid hf hi hp.constructs hp.atop.scopes (.firstOp hf.laid _ _ _) _)
    · exact .refuse _

/-- What takes the first item leaves the stack of the round. -/
lemma Entered.regular_target {target : List Command} (h : Entered narrowing a b loop g) (hf : Follows b x a)
    (hgb : Going c f? symbols b) (hga : Going c f? symbols a) (hg : Going c f? symbols g) (hw : takesItem target g = true)
    (hord : ∀ cmd ∈ target, cmd.Orderly symbols) : Regular (runAll target) g fun _ g' => Looping narrowing b loop g' := by
  obtain ⟨t, hi⟩ := h.item
  obtain ⟨d, hd, hk⟩ := h.kind
  obtain ⟨y, new, hhead, ha, hb⟩ := h.behind
  obtain ⟨-, log', -, old', hsa⟩ := hga
  obtain ⟨rfl, log, hr⟩ := hg
  obtain ⟨-, old, hs⟩ := id hr
  obtain ⟨-, hloop, -⟩ := hs.popLoop h.looping.loops
  have hlong : 1 < new.length := by
    have hstart := Follows.mem ha hsa.laid (hs.mem_live hloop.start.1) h.start
    have hbody := Follows.mem ha hsa.laid (hs.mem_live (hloop.body d hk).1) (Nat.le_trans h.start (Nat.le_of_lt hd))
    match new, hstart, hbody with
    | [z], hstart, hbody =>
      rw [mem_singleton.1 hstart, mem_singleton.1 hbody] at hd
      exact absurd hd (Nat.lt_irrefl _)
    | _ :: _ :: _, _, _ => simp
  -- The item was pushed on account of code of the loop, so the work is on top of the stack of the round.
  have hatop : Atop true a { g with stack := { g.stack with items := loop.stack } } 1 1 g :=
    ⟨⟨new, hb, Nat.le_of_lt hlong, .inr hlong⟩, ⟨[t], hi, rfl⟩, .refl _ _⟩
  have hwork : worksFrom loop.stack.length 0 target g = true := by
    rwa [takesItem, depth, hi] at hw
  refine (regular_runAll hsa hr hatop (Nat.le_refl _) ⟨ha.grown, .inr ⟨new, ha⟩⟩ hwork rfl hord).mono fun _ g' _ hp => ?_
  obtain ⟨new', ha'⟩ := hp.ahead
  obtain ⟨new'', hb', -⟩ := hp.atop.beside
  obtain rfl : new'' = new' := append_cancel_left (hb'.live.symm.trans ha'.live)
  exact h.looping.straight (hf.onto hgb.laid ha' hb')
    (Nat.le_trans (Nat.le_of_lt (hf.laid.lt_next hf.mem_live)) h.start) hp.constructs hp.atop.scopes

/-- The end of a loop over a collection. -/
lemma Looping.regular_endFor {d : Handle} {advance : Generator → Handle → Generator} (h : Looping narrowing b loop g)
    (hgb : Going c f? symbols b) (hg : Going c f? symbols g) (ha : Advancing loop.kind d advance) (hasElse inLoop : Bool) :
    Regular (endFor hasElse) g fun _ g' => ∃ guards, guards.length = hasElse.toNat ∧
      Leaving inLoop narrowing b guards g' := by
  obtain ⟨-, log', -, old', hsb⟩ := hgb
  obtain ⟨-, log, hframe, old, hs⟩ := hg
  obtain ⟨-, hloop, hheld⟩ := hs.popLoop h.loops
  obtain ⟨old1, hs1, hg1⟩ := hs.joinAdvance hframe h.loops ha
  obtain ⟨hloop1, hexits⟩ := hs.left_grows h.loops hg1
  rw [Regular, endFor_ok h.loops ha]
  refine h.finish hsb hs1 (hg1.isSome hframe) hloop1 hexits (fun x hfx _ => ?_) (outline_advanceLoop _ ha) hasElse inLoop
  exact (hfx.still rfl rfl rfl rfl rfl rfl : Follows b x { g with loops := b.loops }).advanceLoop hsb.laid ha
    (hs.mem_live hloop.start.1) h.fresh (fun j hj => hs.mem_live (hheld j (by simp [OpenLoop.held, hj])).1) h.continues

end Generator

namespace Statement

variable {collection target : List Command} {body : Statement}

/-- A loop over a collection up to its end. -/
lemma regular_for {hasElse : Bool}
    (hcoll : keepsRegion narrowing collection = true) (hbody : body.Balances true true) (hg : Going c f? symbols g)
    (hfit : (forDo collection target body).fits g = true)
    (hord : ∀ cmd ∈ (forDo collection target body).commands, cmd.Orderly symbols) :
    Regular (runAll (collection ++ .beginFor :: (target ++ (body.commands ++ [.endFor hasElse])))) g fun _ g' =>
      ∃ guards, guards.length = hasElse.toNat ∧ Leaving inLoop narrowing g guards g' := by
  simp only [commands, forall_mem_append, forall_mem_cons] at hord
  simp only [fits, and_eq_true] at hfit
  refine .append (hg.part hfit.1 hcoll hord.1) fun g1 hrun1 hp => ?_
  have hg1 := hg.runAll hrun1
  obtain ⟨x, hf⟩ := hp.follows
  refine .cons (regular_beginFor hg.laid hp) ?_
  rintro g2 hrun2 ⟨loop, h2⟩
  have hg2 := hg1.run hrun2
  have hfit2 := hfit.2
  rw [after_of_ok (runAll_concat_ok hrun1 hrun2), and_eq_true] at hfit2
  refine .append (h2.regular_target hf hg hg1 hg2 hfit2.1 hord.2.2.1) fun g3 hrun3 h3 => ?_
  have hg3 := hg2.runAll hrun3
  have hfit3 := hfit2.2
  rw [after_of_ok hrun3] at hfit3
  refine .append (hbody hg3 hfit3 hord.2.2.2.1 h3.loopOpen) fun g4 hrun4 hk4 => ?_
  obtain ⟨continues, breaks, h4⟩ := h3.body hg.laid hk4
  obtain ⟨d, -, hk⟩ := h2.kind
  obtain ⟨advance, ha⟩ := exists_advancing hk
  exact .single (h4.regular_endFor hg (hg3.runAll hrun4) ha hasElse inLoop)

lemma balances_forDo (hcoll : keepsRegion narrowing collection = true) (hbody : body.Balances true true) :
    (forDo collection target body).Balances inLoop narrowing := by
  intro c f? symbols g hg hfit hord _
  have hloop : Regular (runAll (forDo collection target body).commands) g fun _ g' =>
      ∃ guards, guards.length = 0 ∧ Leaving inLoop narrowing g guards g' := regular_for hcoll hbody hg hfit hord
  exact hloop.mono fun _ _ _ h => .of_leaving h

lemma fits_forElse (collection target : List Command) (body other : Statement) (g : Generator) :
    (forElse collection target body other).fits g = ((forDo collection target body).fits g &&
      after (collection ++ .beginFor :: (target ++ (body.commands ++ [.endFor true]))) g other.fits) := by
  rw [show collection ++ Command.beginFor :: (target ++ (body.commands ++ [.endFor true])) =
    (collection ++ [.beginFor]) ++ (target ++ (body.commands ++ [.endFor true])) by simp]
  simp only [fits, after_and, after_append (collection ++ [.beginFor]), after_append target, Bool.and_assoc]

lemma commands_forElse (collection target : List Command) (body other : Statement) :
    (forElse collection target body other).commands =
      (collection ++ .beginFor :: (target ++ (body.commands ++ [.endFor true]))) ++ (other.commands ++ [.endLoopElse]) := by
  simp [commands]

lemma balances_forElse {other : Statement}
    (hcoll : keepsRegion narrowing collection = true) (hbody : body.Balances true true)
    (hother : other.Balances inLoop narrowing) : (forElse collection target body other).Balances inLoop narrowing := by
  intro c f? symbols g hg hfit hord hopen
  rw [fits_forElse, and_eq_true] at hfit
  have hord' : ∀ cmd ∈ (forDo collection target body).commands, cmd.Orderly symbols := by
    simp only [commands, forall_mem_append, forall_mem_cons] at hord ⊢
    exact ⟨hord.1, hord.2.1, hord.2.2.1, hord.2.2.2.1, trivial, by simp⟩
  rw [commands_forElse] at hord ⊢
  simp only [forall_mem_append] at hord
  exact regular_other hother hg hopen (regular_for hcoll hbody hg hfit.1 hord') hfit.2 hord.2.1

end Statement

end NeoScript
