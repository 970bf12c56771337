import NeoScript.Proofs.Command.Straight

/-!
# Ending constructs

A command that closes a construct, or a part of it, takes the innermost construct off the open ones and is refused if
that one does not fit. What the command does otherwise is said here once, for everything that is shown of it.
-/

namespace NeoScript

namespace Generator

variable {g : Generator} {branch : OpenBranch} {loop : OpenLoop} {branches : List OpenBranch} {loops : List OpenLoop}
  {kind : LoopKind} {body : Handle} {advance : Generator → Handle → Generator}

/-- Opens the second body of a conditional statement that was taken off the open ones. -/
def openElse (g : Generator) (branch : OpenBranch) : Generator :=
  let g₁ := g.append ⟨.jump .always false, [], .unresolved⟩
  { ((g₁.linkNext branch.jump).restoreStack (g₁.stackAfter branch.jump)).clearScope with
    branches := { branch with other := some (g.next, g.stack.items) } :: g₁.branches }

lemma beginElse_ok (hb : g.branches = branch :: branches) (hnone : branch.other = none) :
    beginElse.run g = .ok () ({ g with branches }.openElse branch) := by
  obtain ⟨⟩ := g
  obtain ⟨⟩ := branch
  subst hb hnone
  rfl

lemma endIf_ok (hb : g.branches = branch :: branches) :
    endIf.run g = .ok () { ((g.linkNext branch.held).restoreStack (ValueType.joinStacks g.stack.items
      ((branch.other.map Prod.snd).getD (g.stackAfter branch.jump)))).popScope with branches } := by
  obtain ⟨⟩ := g
  subst hb
  rfl

/-- What goes on to the next item in a loop over a collection, by the kind of the loop. -/
inductive Advancing : LoopKind → Handle → (Generator → Handle → Generator) → Prop
  | index (body : Handle) : Advancing (.indexed body) body advanceIndex
  | iterator (body : Handle) : Advancing (.iterated body) body advanceIterator

lemma Advancing.kind_eq (h : Advancing kind body advance) : kind = .indexed body ∨ kind = .iterated body := by
  cases h with
  | index => exact .inl rfl
  | iterator => exact .inr rfl

lemma exists_advancing (hk : kind = .indexed body ∨ kind = .iterated body) : ∃ advance, Advancing kind body advance := by
  rcases hk with rfl | rfl
  · exact ⟨_, .index body⟩
  · exact ⟨_, .iterator body⟩

/-- The jump to the test leads to some point of what advances the loop. -/
lemma Advancing.moves (h : Advancing kind body advance) :
    ∃ p q, Move p ∧ Move q ∧ ∀ g s, advance g s = q ((p g).linkNext s) := by
  cases h with
  | index =>
    exact ⟨_, _, Move.stay.op .inc rfl 1 (some .nonNegInt), ((((Move.stay.dup.pushIndex 2).op .pick rfl 1 none).pushType
      .any).op .size rfl 1 (some .nonNegInt)).op .lt rfl 2 (some .bool), fun _ _ => rfl⟩
  | iterator => exact ⟨_, _, .stay, Move.stay.dup.callService .iteratorNext 1 (some .bool), fun _ _ => rfl⟩

lemma endFor_ok (hl : g.loops = loop :: loops) (ha : Advancing loop.kind body advance) (hasElse : Bool) :
    (endFor hasElse).run g = .ok () ({ g with loops }.closeFor loop body hasElse advance) := by
  obtain ⟨⟩ := g
  obtain ⟨⟩ := loop
  subst hl
  cases ha with
  | index => rfl
  | iterator => rfl

/-- The generator at the opening of a method, before anything is emitted. -/
def opened (g : Generator) (name : String) : Generator :=
  (((g.restoreStack []).pushScope).defer (.entry name)).note (.methodBegin name g.code.size)

end Generator

namespace Ends

open Generator

variable {g : Generator} {P : Unit → Generator → Prop} {Q : Generator → Prop}

lemma of_run {x : Emission Unit} {g' : Generator} (hx : x.run g = .ok () g') (h : P () g') : Ends x g P Q := by
  rwa [Ends, hx]

lemma openMethod {name : String} (hQ : Q g) (hrefused : ∀ method cause, g.declaration name = .ok method →
      g.reservation? name method = .error cause → Q (g.opened name))
    (h : ∀ names method i?, g.staticSlots = .ok names → g.declaration name = .ok method →
      g.reservation? name method = .ok i? →
        P () { (g.opened name).appendAll i?.toList with frame := some ⟨name, method⟩ }) : Ends (openMethod name) g P Q := by
  refine .get ?_
  split_ifs
  · exact .throw_bind hQ
  refine .ofExcept_bind hQ fun names hn => .ofExcept_bind hQ fun method hm => .modify_bind ?_
  cases hi : g.reservation? name method with
  | error cause => exact hrefused method cause hm hi
  | ok i? => cases i? <;> exact h names method _ hn hm hi

lemma beginElse (hQ : Q g.popBranch) (h : ∀ branch branches, g.branches = branch :: branches → branch.other = none →
    P () ({ g with branches }.openElse branch)) : Ends beginElse g P Q := by
  cases hb : g.branches with
  | nil =>
    refine .get (.modify_bind ?_)
    rw [hb]
    exact .throw hQ
  | cons branch branches =>
    cases ho : branch.other with
    | none => exact .of_run (beginElse_ok hb ho) (h branch branches hb ho)
    | some other =>
      refine .get (.modify_bind ?_)
      rw [hb, List.head?_cons, Option.filter_some, ho]
      exact .throw hQ

lemma endIf (hQ : Q g.popBranch) (h : ∀ branch branches, g.branches = branch :: branches →
    P () { ((g.linkNext branch.held).restoreStack (ValueType.joinStacks g.stack.items
      ((branch.other.map Prod.snd).getD (g.stackAfter branch.jump)))).popScope with branches }) : Ends endIf g P Q := by
  cases hb : g.branches with
  | nil =>
    refine .get (.modify_bind ?_)
    rw [hb]
    exact .throw hQ
  | cons branch branches => exact .of_run (endIf_ok hb) (h branch branches hb)

lemma endWhile {hasElse : Bool} (hQ : Q g.popLoop) (h : ∀ loop loops j test, g.loops = loop :: loops →
    loop.kind = .conditional (some j) → g.code.target? loop.startJump = some (.code test) →
      P () ((({ g with loops }.closeTest test j).pointAll loop.continues test).finishLoop loop hasElse)) :
    Ends (endWhile hasElse) g P Q := by
  refine .get (.modify_bind ?_)
  cases hl : g.loops with
  | nil => exact .throw hQ
  | cons loop loops =>
    rw [show g.popLoop = { g with loops } by rw [popLoop, hl]; rfl] at hQ ⊢
    refine .get ?_
    split
    · next j test hk ht => exact .modify (h loop loops j test hl hk ht)
    · exact .throw hQ

lemma endFor {hasElse : Bool} (hQ : Q g.popLoop) (h : ∀ loop loops body advance, g.loops = loop :: loops →
    Advancing loop.kind body advance → P () ({ g with loops }.closeFor loop body hasElse advance)) :
    Ends (endFor hasElse) g P Q := by
  cases hl : g.loops with
  | nil =>
    refine .get (.modify_bind ?_)
    rw [hl]
    exact .throw hQ
  | cons loop loops =>
    cases hk : loop.kind with
    | conditional j =>
      refine .get (.modify_bind ?_)
      rw [hl, List.head?_cons]
      dsimp only
      rw [hk]
      exact .throw hQ
    | indexed body =>
      have ha : Advancing loop.kind body advanceIndex := hk ▸ .index body
      exact .of_run (endFor_ok hl ha hasElse) (h loop loops body _ hl ha)
    | iterated body =>
      have ha : Advancing loop.kind body advanceIterator := hk ▸ .iterator body
      exact .of_run (endFor_ok hl ha hasElse) (h loop loops body _ hl ha)

end Ends

end NeoScript
