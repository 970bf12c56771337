import Mathlib.Tactic.Lemma
import NeoScript.Generator.Basic

/-!
# Outcomes of operations

`Ends x g P Q` says of an operation that starts in `g` what holds when it succeeds and what holds when it is
refused. A misuse stops the whole compilation, so nothing is said about the state that it leaves.
-/

namespace NeoScript

/-- From `g` the operation gives a value and a state with `P`, or is refused in a state with `Q`, or is a
misuse. -/
def Ends {α : Type} (x : Emission α) (g : Generator) (P : α → Generator → Prop) (Q : Generator → Prop) : Prop :=
  match x.run g with
  | .ok a g' => P a g'
  | .error (.refused _) g' => Q g'
  | .error .misuse _ => True

lemma run_bind {α β : Type} (x : Emission α) (f : α → Emission β) (g : Generator) : (x >>= f).run g =
      match x.run g with
      | .ok a g' => (f a).run g'
      | .error e g' => .error e g' := by
  simp only [EStateM.run, bind, EStateM.bind]
  cases x g <;> rfl

lemma run_get_bind {α : Type} (f : Generator → Emission α) (g : Generator) : (get >>= f).run g = (f g).run g := rfl

namespace Ends

variable {α β : Type} {g : Generator} {P P' : α → Generator → Prop} {Q Q' : Generator → Prop}
  {f : Generator → Generator} {g' : Generator} {cause : CompileError}

lemma pure {a : α} (h : P a g) : Ends (pure a) g P Q := h

lemma throw_bind {e : Fault} {k : β → Emission α} (h : Q g) : Ends (throw e >>= k) g P Q := by
  cases e with
  | refused cause => exact h
  | misuse => trivial

lemma throw {e : Fault} (h : Q g) : Ends (throw e : Emission α) g P Q := by
  cases e with
  | refused cause => exact h
  | misuse => trivial

lemma modify_bind {k : Unit → Emission α} (h : Ends (k ()) (f g) P Q) : Ends (modify f >>= k) g P Q := h

lemma modify {P : Unit → Generator → Prop} (h : P () (f g)) : Ends (modify f) g P Q := h

lemma get {k : Generator → Emission α} (h : Ends (k g) g P Q) : Ends (get >>= k) g P Q := h

lemma const {x : Emission α} {p : Prop} (h : p) : Ends x g (fun _ _ => p) fun _ => True := by
  unfold Ends
  split
  · exact h
  · trivial
  · trivial

lemma of_ok {x : Emission α} {a : α} (hx : x.run g = .ok a g') (h : Ends x g P Q) : P a g' := by
  rwa [Ends, hx] at h

lemma of_refused {x : Emission α} (hx : x.run g = .error (.refused cause) g') (h : Ends x g P Q) : Q g' := by
  rwa [Ends, hx] at h

lemma mono {x : Emission α} (h : Ends x g P Q) (hP : ∀ a g', P a g' → P' a g') (hQ : ∀ g', Q g' → Q' g') :
    Ends x g P' Q' := by
  unfold Ends at h ⊢
  split at h
  · exact hP _ _ h
  · exact hQ _ h
  · trivial

/-- Two things that are known of one outcome. -/
lemma and {x : Emission α} (h : Ends x g P Q) (h' : Ends x g P' Q') : Ends x g (fun a g' => P a g' ∧ P' a g') Q := by
  unfold Ends at h h' ⊢
  split
  · next hx =>
    rw [hx] at h h'
    exact ⟨h, h'⟩
  · next hx =>
    rwa [hx] at h
  · trivial

lemma remember {x : Emission α} (h : Ends x g P Q) : Ends x g (fun a g' => x.run g = .ok a g' ∧ P a g') Q := by
  unfold Ends at h ⊢
  split at h
  · next hx => exact ⟨hx, h⟩
  · exact h
  · trivial

lemma bind {x : Emission α} {f : α → Emission β} {P' : β → Generator → Prop} (hx : Ends x g P Q)
    (hf : ∀ a g', P a g' → Ends (f a) g' P' Q) : Ends (x >>= f) g P' Q := by
  unfold Ends at hx ⊢
  simp only [EStateM.run, Bind.bind, EStateM.bind] at hx ⊢
  cases h : x g with
  | ok a g' =>
    rw [h] at hx
    exact hf a g' hx
  | error e g' =>
    rw [h] at hx
    cases e with
    | refused cause => exact hx
    | misuse => trivial

lemma ofExcept_bind {x : Except CompileError α} {k : α → Emission β} {P : β → Generator → Prop} (hQ : Q g)
    (h : ∀ a, x = .ok a → Ends (k a) g P Q) : Ends (Emission.ofExcept x >>= k) g P Q := by
  cases x with
  | ok a => exact h a rfl
  | error cause => exact hQ

lemma ofOption {x : Option α} (h : ∀ a, x = some a → P a g) (hQ : Q g) : Ends (Emission.ofOption cause x) g P Q := by
  cases x with
  | some a => exact h a rfl
  | none => exact hQ

lemma ofOption_bind {x : Option α} {k : α → Emission β} {P : β → Generator → Prop} (hQ : Q g)
    (h : ∀ a, x = some a → Ends (k a) g P Q) : Ends (Emission.ofOption cause x >>= k) g P Q := by
  cases x with
  | some a => exact h a rfl
  | none => exact hQ

end Ends

end NeoScript
