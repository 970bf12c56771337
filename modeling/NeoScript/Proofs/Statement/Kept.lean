import NeoScript.Proofs.Generator.Follows
import NeoScript.Proofs.Statement.Basic

/-!
# What a statement keeps

`Kept` relates the states before and after a complete statement: the stack and the open constructs are the same, and
the code of the statement stands behind what was there. Inside a loop, the innermost loop may have got exits, and inside
a branch or a loop the innermost region may know more.
-/

namespace NeoScript

open Generator List

namespace Generator

/-- The loops are as before, or the innermost one has got exits, which are not older than `k`. -/
def LoopsKept (inLoop : Bool) (k : Handle) (ls ls' : List OpenLoop) : Prop :=
  ls' = ls ∨ inLoop = true ∧ ∃ l outer continues breaks, ls = l :: outer ∧
    ls' = { l with continues := l.continues ++ continues, breaks := l.breaks ++ breaks } :: outer ∧
    (∀ j ∈ continues, k ≤ j) ∧ ∀ e ∈ breaks, k ≤ e.flag ∧ k ≤ e.jump

lemma LoopsKept.trans {inLoop : Bool} {k k' : Handle} {ls ls' ls'' : List OpenLoop} (hk : k ≤ k')
    (h : LoopsKept inLoop k ls ls') (h' : LoopsKept inLoop k' ls' ls'') : LoopsKept inLoop k ls ls'' := by
  rcases h with rfl | ⟨hin, l, outer, cs, bs, rfl, rfl, hcs, hbs⟩
  · rcases h' with rfl | ⟨hin, l, outer, cs, bs, rfl, rfl, hcs, hbs⟩
    · exact .inl rfl
    · exact .inr ⟨hin, l, outer, cs, bs, rfl, rfl, fun j hj => Nat.le_trans hk (hcs j hj),
        fun e he => ⟨Nat.le_trans hk (hbs e he).1, Nat.le_trans hk (hbs e he).2⟩⟩
  · rcases h' with rfl | ⟨-, l', outer', cs', bs', hl, rfl, hcs', hbs'⟩
    · exact .inr ⟨hin, l, outer, cs, bs, rfl, rfl, hcs, hbs⟩
    · obtain ⟨rfl, rfl⟩ := List.cons.inj hl
      refine .inr ⟨hin, l, outer, cs ++ cs', bs ++ bs', rfl, ?_, fun j hj => ?_, fun e he => ?_⟩
      · simp only [append_assoc]
      · rcases mem_append.1 hj with hj | hj
        · exact hcs j hj
        · exact Nat.le_trans hk (hcs' j hj)
      · rcases mem_append.1 he with he | he
        · exact hbs e he
        · exact ⟨Nat.le_trans hk (hbs' e he).1, Nat.le_trans hk (hbs' e he).2⟩

/-- The regions around the innermost one. -/
lemma ScopesKept.outer {scope : Scope} {outer s : List Scope} (h : ScopesKept true (scope :: outer) s) :
    ∃ scope', s = scope' :: outer := by
  obtain ⟨hlen, htail⟩ := h
  obtain ⟨scope', outer', rfl⟩ := exists_cons_of_length_eq_add_one hlen
  exact ⟨scope', congrArg (scope' :: ·) htail⟩

/-- What a statement leaves as it was. -/
structure Kept (inLoop narrowing : Bool) (g g' : Generator) : Prop where
  behind : ∃ new, Ahead g new g' ∧ Beside g new g'
  items : g'.stack.items = g.stack.items
  branches : g'.branches = g.branches
  loops : LoopsKept inLoop g.code.nextHandle g.loops g'.loops
  elseGuards : g'.elseGuards = g.elseGuards
  tries : g'.tries = g.tries
  scopes : ScopesKept narrowing g.scopes g'.scopes

variable {inLoop narrowing : Bool} {b c g g' g'' : Generator} {f? : Option String} {log log' : List (Handle × String)}
  {x : Handle}

namespace Kept

lemma grown (h : Kept inLoop narrowing g g') : g.code.nextHandle ≤ g'.code.nextHandle := by
  obtain ⟨new, ha, -⟩ := h.behind
  exact ha.grown

lemma trans (h : Kept inLoop narrowing g g') (h' : Kept inLoop narrowing g' g'') (hr : Ready c f? log g)
    (hr' : Ready c f? log' g') : Kept inLoop narrowing g g'' := by
  obtain ⟨new, ha, hb⟩ := h.behind
  obtain ⟨more, ha', hb'⟩ := h'.behind
  obtain ⟨-, old, hs⟩ := hr
  obtain ⟨-, old', hs'⟩ := hr'
  refine ⟨⟨new ++ more, ha.trans ha' hs hs', hb.trans hb' fun _ => h.items⟩, h'.items.trans h.items,
    h'.branches.trans h.branches, h.loops.trans h.grown h'.loops, h'.elseGuards.trans h.elseGuards,
    h'.tries.trans h.tries, h.scopes.trans h'.scopes⟩

/-- A statement behind a construct that is still open. -/
lemma follows (h : Kept inLoop narrowing g g') (hf : Follows b x g) (hl : b.code.Laid) : Follows b x g' := by
  obtain ⟨new, ha, hb⟩ := h.behind
  exact hf.onto hl ha hb

/-- Code of a construct that is complete. -/
lemma of_follows (hf : Follows g x g') (hi : g'.stack.items = g.stack.items) (hb : g'.branches = g.branches)
    (hl : LoopsKept inLoop g.code.nextHandle g.loops g'.loops) (he : g'.elseGuards = g.elseGuards)
    (ht : g'.tries = g.tries) (hs : ScopesKept narrowing g.scopes g'.scopes) : Kept inLoop narrowing g g' := by
  obtain ⟨new, -, ha, hb'⟩ := hf
  exact ⟨⟨new, ha, hb'⟩, hi, hb, hl, he, ht, hs⟩

end Kept

end Generator

/-! ### Straight parts -/

namespace Command

variable {r : Bool} {b c w g g' : Generator} {d e : Nat} {f? : Option String} {log log' : List (Handle × String)}
  {Y : Handle → Prop} {old' : List Handle} {cmd : Command} {cs : List Command} {left : Nat}

lemma keepsRegion_cons (h : keepsRegion r (cmd :: cs) = true) :
    (cmd.narrows = true → r = true) ∧ keepsRegion r cs = true := by
  cases r <;> simp_all [keepsRegion]

lemma isLinear_of_isPart (h : cmd.isPart = true) : cmd.isLinear = true := by
  cases cmd <;> simp_all [isPart]

/-- The outcome of a straight part, which leaves `d` items on top of the stack of `w`. -/
structure PartOf (r : Bool) (b w : Generator) (d : Nat) (g g' : Generator) : Prop where
  atop : Atop r b w d d g'
  ahead : ∃ new, Ahead b new g'
  constructs : g'.constructs = g.constructs

/-- Nothing of `b` was taken away. -/
lemma ahead_of_atop (ha : Atop r b w d e g) (ho : Onward b g) : ∃ new, Ahead b new g := by
  rcases ho.2 with ⟨h, hm, -, hlost⟩ | hnew
  · obtain ⟨new, hb, -⟩ := ha.beside
    rw [hb.live, mem_append, not_or] at hlost
    exact absurd (mem_of_getLast? hm) hlost.1
  · exact hnew

/-- **A straight part works on top of the stack that it finds.** -/
lemma regular_runAll (hsb : Sound c f? log' Y old' b) (hr : Ready c f? log g)
    (ha : Atop r b w d e g) (he : d ≤ e) (ho : Onward b g) (hw : worksFrom w.stack.depth left cs g = true)
    (hreg : keepsRegion r cs = true) (hord : ∀ cmd ∈ cs, cmd.Orderly g.symbols) :
    Regular (runAll cs) g fun _ g' => PartOf r b w left g g' := by
  induction cs generalizing g d e log with
  | nil =>
    rw [worksFrom, beq_iff_eq] at hw
    obtain rfl : d = left := by
      have hdepth : g.stack.depth = d + w.stack.depth := ha.depth
      omega
    exact .pure ⟨ha.fewer he, ahead_of_atop ha ho, rfl⟩
  | cons cmd cs ih =>
    rw [worksFrom, Bool.and_eq_true, Bool.and_eq_true, Bool.and_eq_true, decide_eq_true_eq, pushes, all_eq_true] at hw
    obtain ⟨⟨⟨hpart, hops⟩, hp⟩, hrest⟩ := hw
    obtain ⟨hnarrow, hreg⟩ := keepsRegion_cons hreg
    have hops' : cmd.operands g ≤ d := by
      have hdepth : g.stack.depth = d + w.stack.depth := ha.depth
      omega
    refine .cons (regular_run hpart (hord cmd mem_cons_self) hnarrow hops' hp ha he hr) ?_
    rintro g1 hrun ⟨d1, e1, he1, ha1⟩
    rw [hrun] at hrest
    have hr1 := (ends_run hr cmd).of_ok hrun
    obtain ⟨ho1, hk1⟩ := (ends_run_onward (isLinear_of_isPart hpart) hsb hr ho).of_ok hrun
    have hsym : g1.symbols = g.symbols := congrArg Prod.fst ((cmd.ends_run_balanced g).of_ok hrun).1.settings
    refine (ih hr1.1 ha1 he1 ho1 hrest hreg fun cmd' hm => ?_).mono fun _ g' _ h => ⟨h.atop, h.ahead, h.constructs.trans hk1⟩
    rw [hsym]
    exact hord cmd' (mem_cons_of_mem _ hm)

/-- A straight part of a statement, with the stack that the statement finds. -/
lemma regular_part (hr : Ready c f? log g) (hw : works left cs g = true)
    (hreg : keepsRegion r cs = true) (hord : ∀ cmd ∈ cs, cmd.Orderly g.symbols) :
    Regular (runAll cs) g fun _ g' => PartOf r g g left g g' := by
  obtain ⟨-, new, hs⟩ := id hr
  exact regular_runAll hs hr (.refl r hs.laid) (Nat.le_refl 0) (.refl g) hw hreg hord

namespace PartOf

lemma follows (h : PartOf r b w (d + 1) g g') : ∃ x, Follows b x g' := by
  obtain ⟨new, ha⟩ := h.ahead
  obtain ⟨new', hb, hlen, -⟩ := h.atop.beside
  obtain rfl : new' = new := append_cancel_left (hb.live.symm.trans ha.live)
  obtain ⟨x, new, rfl⟩ := exists_cons_of_ne_nil (l := new') (by rintro rfl; simp at hlen)
  exact ⟨x, x :: new, rfl, ha, hb⟩

/-- The one item on top. -/
lemma top (h : PartOf r b w 1 g g') : ∃ t, g'.stack.items = t :: w.stack.items := by
  obtain ⟨ts, hitems, hlen⟩ := h.atop.items
  obtain ⟨t, rfl⟩ := length_eq_one_iff.1 hlen
  exact ⟨t, hitems⟩

lemma kept (h : PartOf r g g 0 g g') (inLoop : Bool) : Kept inLoop r g g' := by
  obtain ⟨new, ha⟩ := h.ahead
  obtain ⟨new', hb, -⟩ := h.atop.beside
  obtain rfl : new' = new := append_cancel_left (hb.live.symm.trans ha.live)
  have hk := h.constructs
  simp only [Generator.constructs, Prod.mk.injEq] at hk
  exact ⟨⟨new', ha, hb⟩, h.atop.eq_zero, hk.2.1, .inl hk.2.2.1, hk.2.2.2.1, hk.2.2.2.2, h.atop.scopes⟩

end PartOf

end Command

end NeoScript
