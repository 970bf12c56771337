import NeoScript.Proofs.Generator.Renaming

/-!
# Operations on alike generators

Two alike generators answer an operation in the same way: both go on, alike again, or both stop for the same cause,
and are still alike then. `Agree` says this of an operation, and straight operations agree because each of their steps
keeps generators alike.
-/

namespace NeoScript.Generator

open Emission

variable {ρ : Handle ↪o Handle} {b : Outset} {α β : Type} {g g' : Generator}

/-- Both outcomes are successes, with related values and alike generators, or both are the same fault. Generators are still
alike after a refusal. -/
inductive Concur (ρ : Handle ↪o Handle) (b : Outset) (R : α → α → Prop) :
    EStateM.Result Fault Generator α → EStateM.Result Fault Generator α → Prop
  | ok {a a' : α} {g g' : Generator} : R a a' → Alike ρ b g g' → Concur ρ b R (.ok a g) (.ok a' g')
  | refused {cause : CompileError} {g g' : Generator} :
      Alike ρ ⟨b.next, none⟩ g g' → Concur ρ b R (.error (.refused cause) g) (.error (.refused cause) g')
  | misuse {g g' : Generator} : Concur ρ b R (.error .misuse g) (.error .misuse g')

/-- From `g` and `g'` the operations have such outcomes. -/
def Agree (ρ : Handle ↪o Handle) (b : Outset) (R : α → α → Prop) (x x' : Emission α) (g g' : Generator) : Prop :=
  Concur ρ b R (x.run g) (x'.run g')

namespace Agree

variable {R : α → α → Prop} {S : β → β → Prop}

lemma pure {a a' : α} (hR : R a a') (ha : Alike ρ b g g') : Agree ρ b R (pure a) (pure a') g g' := .ok hR ha

lemma throw (e : Fault) (ha : Alike ρ b g g') : Agree ρ b R (throw e) (throw e) g g' := by
  cases e with
  | refused cause => exact .refused ha.forget
  | misuse => exact .misuse

lemma modify {f f' : Generator → Generator} (ha : Alike ρ b (f g) (f' g')) :
    Agree ρ b (· = ·) (modify f) (modify f') g g' := .ok rfl ha

lemma modify_bind {f f' : Generator → Generator} {k k' : Unit → Emission α}
    (h : Agree ρ b R (k ()) (k' ()) (f g) (f' g')) :
    Agree ρ b R (MonadState.modifyGet (fun g => ((), f g)) >>= k) (MonadState.modifyGet (fun g => ((), f' g)) >>= k') g g' := h

lemma get {k k' : Generator → Emission α} (h : Agree ρ b R (k g) (k' g') g g') :
    Agree ρ b R (get >>= k) (get >>= k') g g' := h

/-- What holds after the first operation may be used for the second. -/
lemma bind_of_ends {x x' : Emission α} {f f' : α → Emission β} {P : α → Generator → Prop} {Q : Generator → Prop}
    (hx : Agree ρ b R x x' g g') (he : Ends x g P Q)
    (hf : ∀ a a' k k', R a a' → P a k → Alike ρ b k k' → Agree ρ b S (f a) (f' a') k k') :
    Agree ρ b S (x >>= f) (x' >>= f') g g' := by
  unfold Agree at hx ⊢
  rw [run_bind, run_bind]
  generalize hr : x.run g = r at hx ⊢
  generalize x'.run g' = r' at hx ⊢
  cases hx with
  | ok hR hk => exact hf _ _ _ _ hR (he.of_ok hr) hk
  | refused hk => exact .refused hk
  | misuse => exact .misuse

lemma bind {x x' : Emission α} {f f' : α → Emission β} (hx : Agree ρ b R x x' g g')
    (hf : ∀ a a' k k', R a a' → Alike ρ b k k' → Agree ρ b S (f a) (f' a') k k') : Agree ρ b S (x >>= f) (x' >>= f') g g' :=
  hx.bind_of_ends (P := fun _ _ => True) (.const trivial) fun a a' k k' hR _ hk => hf a a' k k' hR hk

/-- What goes on with one value does so on both sides. -/
lemma ofExcept (x : Except CompileError α) (ha : Alike ρ b g g') : Agree ρ b (· = ·) (ofExcept x) (ofExcept x) g g' := by
  cases x with
  | ok a => exact pure rfl ha
  | error cause => exact throw _ ha

lemma ofOption (cause : CompileError) (x : Option α) (ha : Alike ρ b g g') :
    Agree ρ b (· = ·) (ofOption cause x) (ofOption cause x) g g' := by
  cases x with
  | some a => exact pure rfl ha
  | none => exact throw _ ha

end Agree

/-! ### Straight steps -/

namespace Alike

section

variable (ha : Alike ρ b g g')
include ha

lemma emitJump (test : JumpTest) : Alike ρ b (g.emitJump test) (g'.emitJump test) :=
  ha.emitOpen _

lemma emitSnippet (s : Snippet) : Alike ρ b (g.emitSnippet s) (g'.emitSnippet s) := by
  induction s generalizing g g' with
  | nil => exact ha
  | op o => exact ha.emitOpen o
  | data o operand => exact ha.append ⟨rfl, rfl, by simp only [Instruction.target?]; split <;> rfl⟩
  | seq p q ihp ihq => exact ihq (ihp ha)
  | skip test body ih => exact (ih (ha.emitJump test)).linkNext ha.next
  | loop body test again ihb iht =>
    have hopen := ha.emitJump .always
    exact (iht ((ihb hopen).linkNext ha.next)).emitTarget _ (by rw [hopen.next]; rfl)

lemma rescope (scopes : List Scope) : Alike ρ b { g with scopes } { g' with scopes } :=
  { ha with context := { ha.context with scopes := rfl } }

lemma narrow (name : String) (t : ValueType) : Alike ρ b (g.narrow name t) (g'.narrow name t) := by
  rw [Generator.narrow, Generator.narrow, ha.context.scopes]
  exact ha.rescope _

lemma addToken (token : MethodToken) :
    Alike ρ b { g with tokens := g.tokens ++ [token] } { g' with tokens := g'.tokens ++ [token] } :=
  { ha with context := { ha.context with tokens := by rw [ha.context.tokens] } }

end

/-- Straight steps keep generators alike. -/
lemma move {p : Generator → Generator} (hp : Move p) (ha : Alike ρ b g g') : Alike ρ b (p g) (p g') := by
  induction hp generalizing g g' with
  | stay => exact ha
  | comp _ _ ihp ihf => exact ihp (ihf ha)
  | @look k _ ih =>
    have h := ih g.view ha
    dsimp only
    rwa [ha.view]
  | append hr _ _ => exact ha.append (.of_plain hr)
  | snippet _ => exact ha.emitSnippet _
  | restoreStack items => exact ha.restoreStack rfl
  | addToken token => exact ha.addToken token
  | @detach q f f' _ _ _ ihf ihf' =>
    dsimp only
    rw [ha.lastPush?_eq]
    cases g.lastPush? q with
    | none => exact ihf' ha
    | some h => exact ihf (ha.removeInstruction h)

end Alike

/-- **Alike generators answer straight operations in the same way.** -/
lemma Straight.agree {P : Opcode → Prop} {x : Emission α} (hx : Straight P x) (ha : Alike ρ b g g') :
    Agree ρ b (· = ·) x x g g' := by
  induction hx generalizing g g' with
  | pure a => exact .pure rfl ha
  | throw e => exact .throw e ha
  | misuse h =>
    obtain ⟨k, hk⟩ := h g
    obtain ⟨k', hk'⟩ := h g'
    rw [Agree, hk, hk']
    exact .misuse
  | modify hp => exact .modify (ha.move hp)
  | inline hr _ _ => exact .modify (ha.append (.of_plain hr))
  | bind _ _ ihx ihf => exact (ihx ha).bind fun a a' k k' he hk => he ▸ ihf a hk
  | @look _ k _ ih =>
    refine .get ?_
    rw [ha.view]
    exact ih g.view ha

end NeoScript.Generator
