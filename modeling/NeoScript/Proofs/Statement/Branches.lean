import NeoScript.Proofs.Statement.Kept

/-!
# Conditional statements keep the stack

`Balances` is what every statement does: it is no misuse, and if nothing of it is refused, it keeps what `Kept` lists.
This module has the statements without loops and protected blocks. The stack after a conditional statement is the join
of two stacks, one of them looked up in the history; both are the stack before the statement, because no record for
the jump over the first body is made after it was emitted.
-/

namespace NeoScript

open Generator Command List Option ShadowStack Bool

variable {c g g' : Generator} {f? : Option String} {symbols : SymbolTable} {inLoop narrowing : Bool}

/-! ### States between commands -/

namespace Generator

/-- A method is under way, between two commands. -/
def Going (c : Generator) (f? : Option String) (symbols : SymbolTable) (g : Generator) : Prop :=
  g.symbols = symbols ∧ ∃ log, Ready c f? log g

/-- In a loop, no protected block around it was closed. -/
def LoopOpen (inLoop : Bool) (g : Generator) : Prop :=
  inLoop = true → ∀ l ∈ g.loops.head?, l.tryDepth ≤ g.tries.length

namespace Going

variable (h : Going c f? symbols g)
include h

lemma laid : g.code.Laid := by
  obtain ⟨-, log, -, new, hs⟩ := h
  exact hs.laid

lemma run {cmd : Command} (hrun : cmd.run.run g = .ok () g') : Going c f? symbols g' := by
  obtain ⟨hsym, log, hr⟩ := h
  have hset : g'.symbols = g.symbols := congrArg Prod.fst ((cmd.ends_run_balanced g).of_ok hrun).1.settings
  exact ⟨hset.trans hsym, _, ((ends_run hr cmd).of_ok hrun).1⟩

lemma runAll {cs : List Command} (hrun : (runAll cs).run g = .ok () g') : Going c f? symbols g' := by
  obtain ⟨hsym, log, hr⟩ := h
  have hset : g'.symbols = g.symbols := congrArg Prod.fst ((ends_runAll_balanced cs g).of_ok hrun).1.settings
  exact ⟨hset.trans hsym, _, ((ends_runAll cs hr).of_ok hrun).1⟩

/-- What an open construct holds is there. -/
lemma mem_live {j : Handle} (hj : j ∈ g.held) : j ∈ g.code.live := by
  obtain ⟨-, log, -, new, hs⟩ := h
  exact hs.mem_live (hs.jumps j hj).1

end Going

lemma LoopsKept.loopOpen {k : Handle} (inner : List OpenTry) (h : LoopsKept inLoop k g.loops g'.loops)
    (ht : g'.tries = inner ++ g.tries) (ho : LoopOpen inLoop g) : LoopOpen inLoop g' := by
  intro hin l hl
  have hlen : g.tries.length ≤ g'.tries.length := by
    rw [ht, length_append]
    exact Nat.le_add_left _ _
  refine Nat.le_trans ?_ hlen
  rcases h with heq | ⟨-, l0, outer, continues, breaks, hg, hg', -, -⟩
  · exact ho hin l (heq ▸ hl)
  · rw [hg'] at hl
    obtain rfl := some.inj hl
    exact ho hin l0 (by rw [hg]; rfl)

end Generator

/-- **What a statement does**: it is no misuse, and if nothing of it is refused, the stack and the open constructs are
as before. -/
def Statement.Balances (inLoop narrowing : Bool) (s : Statement) : Prop :=
  ∀ {c f? symbols g}, Going c f? symbols g → s.fits g = true → (∀ cmd ∈ s.commands, cmd.Orderly symbols) →
    LoopOpen inLoop g → Regular (runAll s.commands) g fun _ g' => Kept inLoop narrowing g g'

/-! ### Straight parts and sequences -/

namespace Generator.Going

/-- A straight part, between two commands. -/
lemma part {cs : List Command} {left : Nat} (h : Going c f? symbols g) (hw : works left cs g = true)
    (hreg : keepsRegion narrowing cs = true) (hord : ∀ cmd ∈ cs, cmd.Orderly symbols) :
    Regular (Command.runAll cs) g fun _ g' => PartOf narrowing g g left g g' := by
  obtain ⟨rfl, log, hr⟩ := h
  exact regular_part hr hw hreg hord

end Generator.Going

namespace Statement

lemma balances_straight {part : List Command} (hn : (straight part).nested inLoop narrowing = true) :
    (straight part).Balances inLoop narrowing := by
  intro c f? symbols g hg hfit hord _
  exact (hg.part hfit hn hord).mono fun _ _ _ h => h.kept inLoop

lemma balances_seq {first second : Statement} (h1 : first.Balances inLoop narrowing)
    (h2 : second.Balances inLoop narrowing) : (seq first second).Balances inLoop narrowing := by
  intro c f? symbols g hg hfit hord hopen
  simp only [fits, and_eq_true] at hfit
  simp only [commands, forall_mem_append] at hord
  refine .append (h1 hg hfit.1 hord.1 hopen) fun g1 hrun hk1 => ?_
  have hfit2 := hfit.2
  rw [after_of_ok hrun] at hfit2
  have hg1 := hg.runAll hrun
  refine (h2 hg1 hfit2 hord.2 (hk1.loops.loopOpen [] hk1.tries hopen)).mono fun _ g2 _ hk2 => ?_
  obtain ⟨-, log, hr⟩ := hg
  obtain ⟨-, log1, hr1⟩ := hg1
  exact hk1.trans hk2 hr hr1

end Statement

/-! ### Branches -/

namespace Generator

variable {t : ValueType} {rest : List ValueType}

/-- The stack looked up for an instruction that has a record. -/
lemma stackAfter_eq {h : Handle} {items : List ValueType} (hl : g.code.Laid) (hm : h ∈ g.code.live)
    (hr : g.stack.recorded? h = some items) : g.stackAfter h = items := by
  obtain ⟨pre, post, hs⟩ := append_of_mem hm
  have horder : g.code.order[pre.length]? = some h := by
    rw [← Array.getElem?_toList]
    change g.code.live[pre.length]? = _
    rw [hs, getElem?_append_right (Nat.le_refl _), Nat.sub_self]
    rfl
  unfold stackAfter ShadowStack.snapshot
  rw [hl.start?_split hs, getD_some, hl.covering?_split hs, bind_some, hl.position?_split hs]
  simp only [recordedBefore, horder, bind_some, hr]

/-- An instruction that takes the top item. -/
lemma track_one (hi : g.stack.items = t :: rest) (i : Instruction) :
    (g.append i).track g.next 1 none = (g.append i).restoreStack rest := by
  have hstack : (g.append i).stack = g.stack := stack_of_context (context_append g i)
  have hitems : (g.append i).view.stack.items = t :: rest := (congrArg items hstack).trans hi
  rw [track_append]
  dsimp only
  rw [popTypes_eq, hitems, if_neg (by simp)]
  rfl

/-- The first body starts with the stack below the condition. -/
lemma beginIf_eq (hi : g.stack.items = t :: rest) :
    g.beginIf = { ((g.append (.unaimed .ifFalse)).restoreStack rest).pushScope with
      branches := { jump := g.next } :: (g.append (.unaimed .ifFalse)).branches } := by
  rw [← track_one hi]
  rfl

/-- This stack is on record for the jump over it. -/
lemma recorded?_beginIf (hi : g.stack.items = t :: rest) :
    g.next ∈ g.beginIf.code.live ∧ g.beginIf.stack.recorded? g.next = some rest ∧ g.beginIf.stack.items = rest := by
  rw [beginIf_eq hi]
  refine ⟨?_, ?_, items_replace _ _ _⟩
  · change g.next ∈ (g.append (.unaimed .ifFalse)).code.live
    rw [live_append]
    exact mem_append_right _ mem_cons_self
  · change ((g.append (.unaimed .ifFalse)).restoreStack rest).stack.recorded? g.next = some rest
    rw [restoreStack, back?_append, recorded?_replace, if_pos rfl]

/-- A conditional statement that was begun on the state `b`, with a body under way: what it remembers, and what is open
around it. -/
structure Branching (inLoop narrowing : Bool) (b : Generator) (branch : OpenBranch) (g : Generator) : Prop where
  follows : ∃ x, Follows b x g
  fresh : b.code.nextHandle ≤ branch.held
  record : branch.jump ∈ g.code.live ∧ g.stack.recorded? branch.jump = some b.stack.items
  other : ∀ e, branch.other = some e → e.2 = b.stack.items
  items : g.stack.items = b.stack.items
  branches : g.branches = branch :: b.branches
  loops : LoopsKept inLoop b.code.nextHandle b.loops g.loops
  elseGuards : g.elseGuards = b.elseGuards
  tries : g.tries = b.tries
  scopes : ∃ scope outer, g.scopes = scope :: outer ∧ ScopesKept narrowing b.scopes outer

end Generator

lemma ValueType.joinStacks_self (items : List ValueType) : ValueType.joinStacks items items = items := by
  rw [joinStacks, if_pos rfl]
  induction items with
  | nil => rfl
  | cons t items ih =>
    rw [zipWith_cons_cons, ih]
    congr 1
    unfold join
    exact if_pos rfl

namespace Generator.Branching

variable {b : Generator} {branch : OpenBranch}

lemma opened (hl : b.code.Laid) (hp : PartOf narrowing b b 1 b g) :
    Branching inLoop narrowing b { jump := g.next } g.beginIf := by
  obtain ⟨x, hf⟩ := hp.follows
  obtain ⟨t, hitems⟩ := hp.top
  have hk := hp.constructs
  simp only [constructs, Prod.mk.injEq] at hk
  obtain ⟨-, hbranches, hloops, hguards, htries⟩ := hk
  obtain ⟨hb, hlo, he, ht, hs⟩ := eq_of_outline (outline_append g (.unaimed .ifFalse))
  obtain ⟨hlive, hrecord, hi⟩ := recorded?_beginIf hitems
  refine ⟨⟨x, ?_⟩, hf.grown, ⟨hlive, hrecord⟩, fun e h => (by cases h), hi, ?_, ?_,
    he.trans hguards, ht.trans htries, ?_⟩
  · rw [beginIf_eq hitems]
    exact ((hf.append hl _).restoreStack _).still rfl rfl rfl rfl rfl rfl
  · exact congrArg _ (hb.trans hbranches)
  · exact .inl (hlo.trans hloops)
  · exact ⟨{}, g.scopes, congrArg _ hs, hp.atop.scopes⟩

variable (h : Branching inLoop narrowing b branch g)
include h

/-- A body of the statement. -/
lemma body (hl : b.code.Laid) (hk : Kept inLoop true g g') : Branching inLoop narrowing b branch g' := by
  obtain ⟨x, hf⟩ := h.follows
  obtain ⟨scope, outer, hs, hscopes⟩ := h.scopes
  obtain ⟨new, ha, hbeside⟩ := hk.behind
  have hrecord := hbeside.records branch.jump h.record.1 _ h.record.2 fun _ => h.items.symm
  have hlive : branch.jump ∈ g'.code.live := by
    rw [ha.live]
    exact mem_append_left _ h.record.1
  refine ⟨⟨x, hk.follows hf hl⟩, h.fresh, ⟨hlive, hrecord⟩, h.other, hk.items.trans h.items, hk.branches.trans h.branches,
    h.loops.trans hf.grown hk.loops, hk.elseGuards.trans h.elseGuards, hk.tries.trans h.tries, ?_⟩
  obtain ⟨scope', hs'⟩ := (hs ▸ hk.scopes : ScopesKept true (scope :: outer) g'.scopes).outer
  exact ⟨scope', outer, hs', hscopes⟩

lemma mem_held : branch.held ∈ g.held :=
  Generator.mem_held.2 (.inl ⟨branch, by rw [h.branches]; exact mem_cons_self, rfl⟩)

/-- The second body starts with the stack of the statement. -/
lemma regular_beginElse (hg : Going c f? symbols g) (hl : b.code.Laid) (hnone : branch.other = none) :
    Regular beginElse g fun _ g' => ∃ e, Branching inLoop narrowing b { branch with other := some e } g' := by
  obtain ⟨x, hf⟩ := h.follows
  obtain ⟨scope, outer, hs, hscopes⟩ := h.scopes
  have hheld : branch.held = branch.jump := by rw [OpenBranch.held, hnone]; rfl
  have hjump : b.code.nextHandle ≤ branch.jump := hheld ▸ h.fresh
  rw [Regular, beginElse_ok h.branches hnone, openElse]
  have hf0 : Follows b x { g with branches := b.branches } := hf.still rfl rfl rfl rfl rfl rfl
  have hb0 : Beside g [] { g with branches := b.branches } := (Beside.refl hg.laid).still rfl rfl
  have hout0 : ({ g with branches := b.branches } : Generator).outline =
    ((g.frame, b.branches, g.loops, g.elseGuards, g.tries), g.scopes) := rfl
  have hitems0 : ({ g with branches := b.branches } : Generator).stack.items = g.stack.items := rfl
  generalize ({ g with branches := b.branches } : Generator) = g0 at hf0 hb0 hout0 hitems0
  refine ⟨(g0.next, g0.stack.items), ?_⟩
  -- The jump over the second body ends the first one.
  have hb1 := hb0.append (.unaimed .always)
  have hf1 := hf0.append hl (.unaimed .always)
  have hout1 := (outline_append g0 (.unaimed .always)).trans hout0
  generalize (g0.append (.unaimed .always)) = g1 at hb1 hf1 hout1
  have hrecord := hb1.records branch.jump h.record.1 _ h.record.2 fun _ => h.items.symm
  have hlive : branch.jump ∈ g1.code.live := by
    rw [hb1.live]
    exact mem_append_left _ h.record.1
  have hlinked : Beside g [g0.next] (g1.linkNext branch.jump) := hb1.still rfl rfl
  have hb2 : Beside g [g0.next] ((g1.linkNext branch.jump).restoreStack b.stack.items) := hlinked.restoreStack (by simp)
  rw [stackAfter_eq hf1.laid hlive hrecord]
  simp only [outline, constructs, Prod.mk.injEq] at hout1
  obtain ⟨⟨-, hbranches, hloops, hguards, htries⟩, hscopes1⟩ := hout1
  refine ⟨⟨x, ?_⟩, hf0.grown, ⟨hlive, ?_⟩, ?_, items_replace _ _ _, ?_, ?_, hguards.trans h.elseGuards,
    htries.trans h.tries, ?_⟩
  · exact ((hf1.linkNext hl hlive hjump).restoreStack _).still rfl rfl rfl rfl rfl rfl
  · exact hb2.records branch.jump h.record.1 _ h.record.2 fun _ => h.items.symm
  · intro e he
    rw [← some.inj he]
    exact hitems0.trans h.items
  · exact congrArg _ hbranches
  · exact hloops ▸ h.loops
  · refine ⟨{}, outer, ?_, hscopes⟩
    change g1.clearScope.scopes = _
    rw [clearScope, hscopes1, hs]

/-- After the statement the stack is as before it. -/
lemma regular_endIf (hg : Going c f? symbols g) (hl : b.code.Laid) :
    Regular endIf g fun _ g' => Kept inLoop narrowing b g' := by
  obtain ⟨x, hf⟩ := h.follows
  obtain ⟨scope, outer, hs, hscopes⟩ := h.scopes
  rw [Regular, endIf_ok h.branches]
  have hother : (branch.other.map Prod.snd).getD (g.stackAfter branch.jump) = b.stack.items := by
    cases ho : branch.other with
    | none => exact stackAfter_eq hg.laid h.record.1 h.record.2
    | some e => exact h.other e ho
  have hlinked := hf.linkNext hl (hg.mem_live h.mem_held) h.fresh
  refine Kept.of_follows ((hlinked.restoreStack _).still rfl rfl rfl rfl rfl rfl) ?_ rfl h.loops h.elseGuards h.tries ?_
  · refine (items_replace _ _ _).trans ?_
    rw [hother, h.items, ValueType.joinStacks_self]
  · change ScopesKept narrowing b.scopes g.scopes.tail
    rwa [hs]

end Generator.Branching

namespace Statement

lemma balances_ifThen {condition : List Command} {body : Statement}
    (hcond : keepsRegion narrowing condition = true) (hbody : body.Balances inLoop true) :
    (ifThen condition body).Balances inLoop narrowing := by
  intro c f? symbols g hg hfit hord hopen
  simp only [fits, and_eq_true] at hfit
  simp only [commands, forall_mem_append, forall_mem_cons] at hord
  refine .append (hg.part hfit.1 hcond hord.1) fun g1 hrun1 hp => ?_
  refine .cons (P := fun _ g' => Branching inLoop narrowing g { jump := g1.next } g') (.modify (.opened hg.laid hp)) ?_
  intro g2 hrun2 h2
  have hfit2 := hfit.2
  rw [after_of_ok (runAll_concat_ok hrun1 hrun2)] at hfit2
  have hg2 := (hg.runAll hrun1).run hrun2
  refine .append (hbody hg2 hfit2 hord.2.2.1 (h2.loops.loopOpen [] h2.tries hopen)) fun g3 hrun3 hk3 => ?_
  exact .single ((h2.body hg.laid hk3).regular_endIf (hg2.runAll hrun3) hg.laid)

lemma balances_ifElse {condition : List Command} {body other : Statement}
    (hcond : keepsRegion narrowing condition = true) (hbody : body.Balances inLoop true)
    (hother : other.Balances inLoop true) : (ifElse condition body other).Balances inLoop narrowing := by
  intro c f? symbols g hg hfit hord hopen
  simp only [fits, and_eq_true] at hfit
  simp only [commands, forall_mem_append, forall_mem_cons] at hord
  refine .append (hg.part hfit.1 hcond hord.1) fun g1 hrun1 hp => ?_
  refine .cons (P := fun _ g' => Branching inLoop narrowing g { jump := g1.next } g') (.modify (.opened hg.laid hp)) ?_
  intro g2 hrun2 h2
  have hfit2 := hfit.2
  rw [after_of_ok (runAll_concat_ok hrun1 hrun2), and_eq_true] at hfit2
  have hg2 := (hg.runAll hrun1).run hrun2
  refine .append (hbody hg2 hfit2.1 hord.2.2.1 (h2.loops.loopOpen [] h2.tries hopen)) fun g3 hrun3 hk3 => ?_
  have hg3 := hg2.runAll hrun3
  refine .cons ((h2.body hg.laid hk3).regular_beginElse hg3 hg.laid rfl) ?_
  rintro g4 hrun4 ⟨e, h4⟩
  have hfit4 := hfit2.2
  rw [after_of_ok (runAll_concat_ok hrun3 hrun4)] at hfit4
  have hg4 := hg3.run hrun4
  refine .append (hother hg4 hfit4 hord.2.2.2.2.1 (h4.loops.loopOpen [] h4.tries hopen)) fun g5 hrun5 hk5 => ?_
  exact .single ((h4.body hg.laid hk5).regular_endIf (hg4.runAll hrun5) hg.laid)

end Statement

end NeoScript
