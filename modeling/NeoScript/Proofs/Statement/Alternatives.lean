import NeoScript.Proofs.Statement.Balance

/-!
# Both bodies of a conditional start with the same stack

The stack of the second body is looked up in the history, as the record of the jump over the first body. A body of a
conditional expression leaves a value, so a first body may end with another stack than it found. What it may not do is
take anything from below the stack that it finds: a change of these items that emits nothing would be recorded for the
jump.
-/

namespace NeoScript

open Generator Command List ShadowStack

lemma ValueType.length_joinStacks (a b : List ValueType) : (joinStacks a b).length = a.length := by
  unfold joinStacks
  split_ifs with h
  · rw [length_zipWith, ← h, Nat.min_self]
  · rfl

lemma ValueType.joinStacks_append (a b items : List ValueType) :
    joinStacks (a ++ items) (b ++ items) = joinStacks a b ++ items := by
  have hself := joinStacks_self items
  unfold joinStacks at *
  rw [if_pos rfl] at hself
  simp only [length_append, Nat.add_right_cancel_iff]
  split_ifs with h
  · rw [zipWith_append h, hself]
  · rfl

namespace Generator

variable {r inLoop : Bool} {b c g g' : Generator} {d d' e e' : Nat} {f? : Option String} {symbols : SymbolTable}
  {floor : Nat}

/-- Work from `g` to `g'` above the lowest `floor` items of the stack: commands that find their operands there, complete
statements, and conditionals whose bodies may leave items. -/
inductive Branch (inLoop : Bool) : Nat → Generator → Generator → Prop where
  | nil (floor : Nat) (g : Generator) : Branch inLoop floor g g
  | command {floor : Nat} {g g₁ g₂ : Generator} {cmd : Command} (before : Branch inLoop floor g g₁)
      (hpart : cmd.isPart = true) (hord : cmd.Orderly g₁.symbols) (hops : floor + cmd.operands g₁ ≤ g₁.stack.depth)
      (hpush : cmd.pushes g₁ = true) (hrun : cmd.run.run g₁ = .ok () g₂) : Branch inLoop floor g g₂
  | statement {floor : Nat} {g g₁ g₂ : Generator} {s : Statement} (before : Branch inLoop floor g g₁)
      (hn : s.nested inLoop true = true) (hfit : s.fits g₁ = true) (hord : ∀ cmd ∈ s.commands, cmd.Orderly g₁.symbols)
      (hrun : (runAll s.commands).run g₁ = .ok () g₂) : Branch inLoop floor g g₂
  | choice {floor : Nat} {g g₁ g₂ g₃ g₄ g₅ : Generator} (before : Branch inLoop floor g g₁)
      (hcond : floor < g₁.stack.depth) (first : Branch inLoop (g₁.stack.depth - 1) g₁.beginIf g₂)
      (helse : beginElse.run g₂ = .ok () g₃) (second : Branch inLoop (g₁.stack.depth - 1) g₃ g₄)
      (hend : endIf.run g₄ = .ok () g₅) : Branch inLoop floor g g₅

/-- Work on top of work. -/
lemma Atop.trans (ha : Atop r b b d e g) (hle : d ≤ e) (h : Atop r g g d' e' g') : Atop r b b (d + d') (e + e') g' := by
  obtain ⟨new, hb, hn, -⟩ := ha.beside
  obtain ⟨more, hm, hn', -⟩ := h.beside
  obtain ⟨ts, hi, rfl⟩ := ha.items
  obtain ⟨ts', hi', rfl⟩ := h.items
  refine ⟨⟨new ++ more, hb.trans hm ?_, ?_, .inl rfl⟩, ⟨ts' ++ ts, ?_, ?_⟩, ha.scopes.trans h.scopes⟩
  · rintro rfl
    rw [hi, eq_nil_of_length_eq_zero (Nat.le_zero.1 (le_trans hle hn)), nil_append]
  · rw [length_append]
    omega
  · rw [hi', hi, append_assoc]
  · rw [length_append, add_comm]

lemma Kept.atop (h : Kept inLoop r g g') : Atop r g g 0 0 g' := by
  obtain ⟨new, -, hb⟩ := h.behind
  exact ⟨⟨new, hb, Nat.zero_le _, .inl rfl⟩, ⟨[], h.items, rfl⟩, h.scopes⟩

/-- A state in a first or second body, which works on top of the stack of `b`. -/
def Working (inLoop : Bool) (b g : Generator) : Prop := (∃ d e, d ≤ e ∧ Atop true b b d e g) ∧ LoopOpen inLoop g

/-- Opening the first body: its stack is on record for the jump over it. -/
lemma Working.opened (hl : g.code.Laid) (hopen : LoopOpen inLoop g) (hcond : 0 < g.stack.depth) :
    Working inLoop g.beginIf g.beginIf ∧
      (g.next ∈ g.beginIf.code.live ∧ g.beginIf.stack.recorded? g.next = some g.beginIf.stack.items) ∧
      g.beginIf.branches = { jump := g.next } :: g.branches ∧ g.beginIf.stack.depth = g.stack.depth - 1 := by
  obtain ⟨t, rest, hi⟩ := exists_cons_of_length_pos hcond
  obtain ⟨hlive, hrecord, hrest⟩ := recorded?_beginIf hi
  obtain ⟨hb, hloops, -, htries, -⟩ := eq_of_outline (outline_append g (.unaimed .ifFalse))
  refine ⟨⟨⟨0, 0, le_refl 0, .refl true (laid_append _ _ hl)⟩, fun hin l hm => ?_⟩, ⟨hlive, by rw [hrecord, hrest]⟩,
    congrArg _ hb, ?_⟩
  · exact htries ▸ hopen hin l (hloops ▸ hm)
  · rw [depth, depth, hrest, hi, length_cons, Nat.add_sub_cancel]

/-- Closing the first body: the stack is the one that is on record for the jump over it. -/
lemma Working.beginElse {j : Handle} {outer : List OpenBranch} (h : Working inLoop b g)
    (hrecord : j ∈ b.code.live ∧ b.stack.recorded? j = some b.stack.items) (hb : g.branches = { jump := j } :: outer) :
    ∃ g', beginElse.run g = .ok () g' ∧ Working inLoop b g' ∧ g'.stack.items = b.stack.items ∧
      g'.branches = { jump := j, other := some (g.next, g.stack.items) } :: outer := by
  obtain ⟨⟨d, e, hle, ha⟩, hopen⟩ := h
  refine ⟨_, beginElse_ok hb rfl, ?_⟩
  rw [openElse]
  have ha0 : Atop true b b d e { g with branches := outer } := ha.still rfl rfl (.refl true _)
  have ha1 := ha0.append (.unaimed .always)
  have hout := outline_append { g with branches := outer } (.unaimed .always)
  generalize { g with branches := outer }.append (.unaimed .always) = g1 at ha1 hout
  obtain ⟨hbranches, hloops, -, htries, -⟩ := eq_of_outline hout
  obtain ⟨new, hbeside, hn, -⟩ := ha1.beside
  have hlive : j ∈ g1.code.live := by
    rw [hbeside.live]
    exact mem_append_left _ hrecord.1
  have hitems : g1.stackAfter j = b.stack.items :=
    stackAfter_eq hbeside.laid hlive (hbeside.records j hrecord.1 _ hrecord.2 fun _ => rfl)
  rw [hitems]
  refine ⟨⟨⟨0, e + 1, Nat.zero_le _, ?_⟩, ?_⟩, items_replace _ _ _, congrArg _ hbranches⟩
  · have hlinked : Atop true b b d (e + 1) (g1.linkNext j) := ha1.still rfl rfl (.refl true _)
    refine (hlinked.restoreStack [] rfl rfl fun _ => rfl).still rfl rfl ?_
    change ScopesKept true g1.scopes g1.clearScope.scopes
    unfold clearScope
    cases g1.scopes with
    | nil | cons scope outer => exact ⟨rfl, rfl⟩
  · intro hin l hl
    exact htries ▸ hopen hin l (hloops ▸ hl)

/-- Closing the second body: below the items that it leaves, the stack is that of both bodies. -/
lemma Working.endIf {branch : OpenBranch} {outer : List OpenBranch} {j : Handle} {ts : List ValueType}
    (h : Working inLoop b g) (hb : g.branches = branch :: outer) (ho : branch.other = some (j, ts ++ b.stack.items)) :
    ∃ g', endIf.run g = .ok () g' ∧ Working inLoop { b with scopes := b.scopes.tail } g' ∧ g'.branches = outer := by
  obtain ⟨⟨d, e, hle, ha⟩, hopen⟩ := h
  obtain ⟨ts', hi, rfl⟩ := ha.items
  refine ⟨_, endIf_ok hb, ⟨⟨ts'.length, e, hle, ?_⟩, hopen⟩, rfl⟩
  rw [ho, Option.map_some, Option.getD_some, hi, ValueType.joinStacks_append]
  have hlinked : Atop true b b ts'.length e (g.linkNext branch.held) := ha.still rfl rfl (.refl true _)
  have hjoin := hlinked.restoreStack (ValueType.joinStacks ts' ts) rfl (ValueType.length_joinStacks ts' ts) (by omega)
  obtain ⟨new, hbeside, hn, -⟩ := hjoin.beside
  have hscopes : g.scopes.tail = b.scopes.tail := hjoin.scopes.2
  exact ⟨⟨new, ⟨hbeside.laid, hbeside.live, hbeside.records⟩, hn, .inl rfl⟩, hjoin.items, congrArg length hscopes,
    congrArg tail hscopes⟩

/-- **What a branch keeps**, by induction over its steps. A conditional in it is work on top of the stack below its
condition. -/
lemma Branch.working (h : Branch inLoop floor g g') (hg : Going c f? symbols g) (hw : Working inLoop b g)
    (hfloor : b.stack.depth = floor) : Going c f? symbols g' ∧ Working inLoop b g' ∧ g'.branches = g.branches := by
  induction h generalizing b with
  | nil => exact ⟨hg, hw, rfl⟩
  | @command floor g g1 g2 cmd _ hpart hord hops hpush hrun ih =>
    obtain ⟨hg1, ⟨⟨d, e, hle, ha⟩, hopen⟩, hbranches⟩ := ih hg hw hfloor
    have hdepth : g1.stack.depth = d + b.stack.depth := ha.depth
    obtain ⟨-, log, hr⟩ := id hg1
    obtain ⟨-, new, hs⟩ := id hr
    have hatop := (regular_run hpart hord (fun _ => rfl) (by omega) (all_eq_true.1 hpush) ha hle hr).of_ok hrun
    have hk := ((ends_run_onward (isLinear_of_isPart hpart) hs hr (.refl g1)).of_ok hrun).2
    simp only [constructs, Prod.mk.injEq] at hk
    obtain ⟨-, hb, hl, -, ht⟩ := hk
    exact ⟨hg1.run hrun, ⟨hatop, fun hin l hm => ht ▸ hopen hin l (hl ▸ hm)⟩, hb.trans hbranches⟩
  | @statement floor g g1 g2 s _ hn hfit hord hrun ih =>
    obtain ⟨hg1, ⟨⟨d, e, hle, ha⟩, hopen⟩, hbranches⟩ := ih hg hw hfloor
    have hk := (s.balances hn hg1 hfit (hg1.1 ▸ hord) hopen).of_ok hrun
    exact ⟨hg1.runAll hrun, ⟨⟨d, e, hle, ha.trans hle hk.atop⟩, hk.loops.loopOpen [] hk.tries hopen⟩,
      hk.branches.trans hbranches⟩
  | @choice floor g g1 g2 g3 g4 g5 _ hcond _ helse _ hend ih ih2 ih4 =>
    obtain ⟨hg1, ⟨⟨d, e, hle, ha⟩, hopen⟩, hbranches⟩ := ih hg hw hfloor
    have hdepth : g1.stack.depth = d + b.stack.depth := ha.depth
    obtain ⟨hw1, hrecord, hb1, hdepth1⟩ := Working.opened hg1.laid hopen (by omega)
    obtain ⟨hg2, hw2, hb2⟩ := ih2 (hg1.run (show Command.beginIf.run.run g1 = .ok () g1.beginIf from rfl)) hw1 hdepth1
    obtain ⟨g3', hrun3, hw3, -, hb3⟩ := hw2.beginElse hrecord (hb2.trans hb1)
    cases hrun3.symm.trans helse
    obtain ⟨hg4, hw4, hb4⟩ := ih4 (hg2.run (show Command.beginElse.run.run g2 = _ from helse)) hw3 hdepth1
    obtain ⟨⟨d2, e2, -, ha2⟩, -⟩ := hw2
    obtain ⟨ts, hi2, -⟩ := ha2.items
    rw [hi2] at hb3
    obtain ⟨g5', hrun5, ⟨⟨d5, e5, hle5, ha5⟩, hopen5⟩, hb5⟩ := hw4.endIf (hb4.trans hb3) rfl
    cases hrun5.symm.trans hend
    have hbelow : Atop true b b (d - 1) (e + 1) { g1.beginIf with scopes := g1.beginIf.scopes.tail } :=
      (ha.track_none (.unaimed .ifFalse) 1 (by omega)).still rfl rfl (.refl true _)
    have hg5 := hg4.run (show Command.endIf.run.run g4 = _ from hend)
    exact ⟨hg5, ⟨⟨_, _, by omega, hbelow.trans (by omega) ha5⟩, hopen5⟩, hb5.trans hbranches⟩

/-- **The second body of a conditional starts with the stack of the first one.** The conditional is begun anywhere in
the middle of a method, with a condition on the stack; the first body is any work on top of the stack below it, and may
leave items. Then the second body can be opened, and each type on the stack is the one that was there right after the
first one was opened. -/
theorem beginElse_restores_stack {inLoop : Bool} {g g₁ : Generator} (hg : Underway g) (hcond : 0 < g.stack.depth)
    (hopen : LoopOpen inLoop g) (hbranch : Branch inLoop (g.stack.depth - 1) g.beginIf g₁) :
    ∃ g₂, beginElse.run g₁ = .ok () g₂ ∧ g₂.stack.items = g.beginIf.stack.items := by
  obtain ⟨b, log, hready, -⟩ := hg.ready
  have hgoing : Going b none g.symbols g := ⟨rfl, log, hready⟩
  obtain ⟨hw, hrecord, hb, hdepth⟩ := Working.opened hgoing.laid hopen hcond
  obtain ⟨-, hw₁, hb₁⟩ := hbranch.working (hgoing.run (show Command.beginIf.run.run g = .ok () g.beginIf from rfl)) hw hdepth
  obtain ⟨g₂, hrun, -, hitems, -⟩ := hw₁.beginElse hrecord (hb₁.trans hb)
  exact ⟨g₂, hrun, hitems⟩

open Statement in
/-- A first body that leaves a number and runs the search on top of it. -/
theorem beginElse_restores_stack_search :
    ∃ g g₁ g₂, Underway g ∧ g.stack.items = [.bool, .list .int] ∧ Branch false 1 g.beginIf g₁ ∧
      g₁.stack.items = [.int, .list .int] ∧ beginElse.run g₁ = .ok () g₂ ∧ g₂.stack.items = [.list .int] := by
  have hsome : ((stateAfter listAndNumbers "main" [.load "xs", .literal (.bool true)]).any fun g =>
      (Command.load "x").run.passes g.beginIf fun g₀ => (runAll nestedSearch.commands).passes g₀ fun g₁ =>
        nestedSearch.fits g₀ && (Command.load "x").pushes g.beginIf && g.stack.items == [.bool, .list .int] && g.beginIf.stack.items == [.list .int] &&
          g₁.stack.items == [.int, .list .int]) = true := by decide +kernel
  obtain ⟨g, hg, hsome⟩ := (Option.any_eq_true _ _).1 hsome
  obtain ⟨g₀, hload, hsome⟩ := Emission.run_of_passes hsome
  obtain ⟨g₁, hrun, hsome⟩ := Emission.run_of_passes hsome
  simp only [Bool.and_eq_true, beq_iff_eq] at hsome
  obtain ⟨⟨⟨⟨hfit, hpush⟩, hitems⟩, hrest⟩, hfirst⟩ := hsome
  have hlen : Builtin.len.WellFormed := Builtin.wellFormed_ofName? (show Builtin.ofName? "len" = some .len from rfl)
  have hbranch : Branch false 1 g.beginIf g₁ :=
    ((Branch.nil 1 _).command (by rfl) (by trivial) (by simp [ShadowStack.depth, hrest, operands]) hpush hload).statement
      (s := nestedSearch) (by decide) hfit (by simp [nestedSearch, commands, Orderly, hlen]) hrun
  have hdepth : g.stack.depth = 2 := congrArg length hitems
  have hunderway := Underway.of_stateAfter hg
  have hopen : LoopOpen false g := fun h => by cases h
  obtain ⟨g₂, helse, hi⟩ := beginElse_restores_stack hunderway (by omega) hopen (by rw [hdepth]; exact hbranch)
  exact ⟨g, g₁, g₂, hunderway, hitems, hbranch, hfirst, helse, hi.trans hrest⟩

end Generator

end NeoScript
