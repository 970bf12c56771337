import NeoScript.Proofs.Machine.Snippet
import NeoScript.Proofs.Statement.LaysTry

/-!
# Protected regions

At run time a protected block is a region. It is opened in its body, an exception takes it to its handler, and control
gets to its finalizer when its body or handler is left or when an exception is on its way. What leaves a body or a handler
is not allowed in a finalizer, and only what ends a finalizer may end one.

Here the machine is reduced to this: which instruction comes next, and which regions are open. All else is left open, so
both ways of a test are taken, and an exception can come up at each instruction. The regions that are open at an
instruction do not depend on the way to it. Their `Shape` is known from the layout of the code, and this is what makes
all instructions legal.
-/

namespace NeoScript

open Generator Command Instruction Machine

namespace Regions

/-! ### The machine -/

/-- What is known of a region: where its handler and its finalizer are, and which part of it is running. -/
structure Frame where
  handler : Option Handle
  finalizer : Option Handle
  stage : TryStage := .body
  deriving DecidableEq, Repr

/-- An open region. -/
structure Region extends Frame where
  /-- Where control goes from the finalizer; none if an exception is on its way. -/
  resume : Option Handle := none
  deriving DecidableEq, Repr

/-- The instruction that comes next, and the open regions, the innermost first. -/
structure Config where
  pc : Handle
  regions : List Region := []
  deriving DecidableEq, Repr

/-- An exception closes regions until one of them takes it. It leaves the code if there is none. -/
def raised : List Region → Option Config
  | [] => none
  | r :: rest =>
    match r.stage, r.handler, r.finalizer with
    | .body, some h, _ => some ⟨h, { r with stage := .handler } :: rest⟩
    | .body, none, some f | .handler, _, some f => some ⟨f, { r with stage := .finalizer, resume := none } :: rest⟩
    | _, _, _ => raised rest

/-- One step on some way through the code, behind which comes `x`. -/
inductive Step (code : Code) (x : Handle) : Config → Config → Prop
  | next {pc i n R} (hf : fetch code x pc = some (i, n)) (hr : i.opcode.role = .plain ∨ i.opcode.role = .call)
      (he : i.opcode.endsFlow = false) : Step code x ⟨pc, R⟩ ⟨n, R⟩
  | jump {pc test long bs t n R} (hf : fetch code x pc = some (⟨.jump test long, bs, .code t⟩, n)) :
      Step code x ⟨pc, R⟩ ⟨t, R⟩
  | pass {pc test long bs t n R} (hf : fetch code x pc = some (⟨.jump test long, bs, .code t⟩, n)) (ht : test ≠ .always) :
      Step code x ⟨pc, R⟩ ⟨n, R⟩
  | enter {pc long bs h f n R} (hf : fetch code x pc = some (⟨.tryEnter long, bs, .handlers h f⟩, n)) :
      Step code x ⟨pc, R⟩ ⟨n, { handler := h, finalizer := f } :: R⟩
  | leave {pc long bs t n r R} (hf : fetch code x pc = some (⟨.tryLeave long, bs, .code t⟩, n))
      (hs : r.stage ≠ .finalizer) (hn : r.finalizer = none) : Step code x ⟨pc, r :: R⟩ ⟨t, R⟩
  | finalize {pc long bs t n r R f} (hf : fetch code x pc = some (⟨.tryLeave long, bs, .code t⟩, n))
      (hs : r.stage ≠ .finalizer) (hn : r.finalizer = some f) :
      Step code x ⟨pc, r :: R⟩ ⟨f, { r with stage := .finalizer, resume := some t } :: R⟩
  | finish {pc i n r R t} (hf : fetch code x pc = some (i, n)) (ho : i.opcode = .finallyLeave)
      (hs : r.stage = .finalizer) (ht : r.resume = some t) : Step code x ⟨pc, r :: R⟩ ⟨t, R⟩
  | rethrow {pc i n r R c} (hf : fetch code x pc = some (i, n)) (ho : i.opcode = .finallyLeave)
      (hs : r.stage = .finalizer) (ht : r.resume = none) (hc : raised R = some c) : Step code x ⟨pc, r :: R⟩ c
  | raise {pc i n R c} (hf : fetch code x pc = some (i, n)) (hc : raised R = some c) : Step code x ⟨pc, R⟩ c

/-- The ways through the code. -/
abbrev Leads (code : Code) (x : Handle) : Config → Config → Prop := Relation.ReflTransGen (Step code x)

/-- Whether the regions allow an opcode. -/
def allowed (o : Opcode) (regions : List Region) : Bool :=
  match o with
  | .tryLeave _ => regions.head?.any fun r => r.stage != .finalizer
  | .finallyLeave => regions.head?.any fun r => r.stage == .finalizer
  | _ => true

/-- The instruction that comes next is one that the regions allow. -/
def Legal (code : Code) (x : Handle) (c : Config) : Prop :=
  ∀ i n, fetch code x c.pc = some (i, n) → allowed i.opcode c.regions = true

/-! ### Shapes -/

/-- The frames of the regions that are open at an instruction. -/
abbrev Shape := List Frame

/-- With the regions `σ` at an instruction, the ones at its successors are as `A` says. -/
inductive Allows (A : Handle → Shape → Prop) : Instruction → Handle → Shape → Prop
  | plain {i n σ} (hr : i.opcode.role = .plain) (ho : i.opcode ≠ .finallyLeave) (hn : A n σ) : Allows A i n σ
  | call {i n σ} (hr : i.opcode.role = .call) (hn : A n σ) : Allows A i n σ
  | jump {test long bs t n σ} (ht : A t σ) (hn : test ≠ .always → A n σ) : Allows A ⟨.jump test long, bs, .code t⟩ n σ
  | protect {e f n σ} (hn : A n (⟨e, f, .body⟩ :: σ)) (he : ∀ k, e = some k → A k (⟨e, f, .handler⟩ :: σ))
      (hf : ∀ k, f = some k → A k (⟨e, f, .finalizer⟩ :: σ)) : Allows A (protect e f) n σ
  | leave {t n fr σ} (hs : fr.stage ≠ .finalizer) (ht : A t σ) : Allows A (leave t) n (fr :: σ)
  | finish {n fr σ} (hs : fr.stage = .finalizer) : Allows A (bare .finallyLeave) n (fr :: σ)

/-- The regions have the shape, and control gets from each of them to where `A` expects it. -/
inductive Matches (A : Handle → Shape → Prop) : Shape → List Region → Prop
  | nil : Matches A [] []
  | cons {r σ R} (hh : ∀ k, r.handler = some k → A k (⟨r.handler, r.finalizer, .handler⟩ :: σ))
      (hf : ∀ k, r.finalizer = some k → A k (⟨r.handler, r.finalizer, .finalizer⟩ :: σ))
      (ht : ∀ t, r.resume = some t → A t σ) (hR : Matches A σ R) : Matches A (r.toFrame :: σ) (r :: R)

/-- The regions are as `A` says of the instruction that comes next. -/
def Good (A : Handle → Shape → Prop) (c : Config) : Prop := ∃ σ, A c.pc σ ∧ Matches A σ c.regions

variable {A : Handle → Shape → Prop} {code : Code} {x h n : Handle} {σ τ : Shape} {i : Instruction} {fr : Frame}
  {R : List Region} {c d : Config}

lemma Matches.length (hm : Matches A σ R) : R.length = σ.length := by
  induction hm with
  | nil => rfl
  | cons _ _ _ _ ih => rw [List.length_cons, List.length_cons, ih]

/-- The same region in its handler or in its finalizer. -/
lemma Matches.turn {r : Region} (hh : ∀ k, r.handler = some k → A k (⟨r.handler, r.finalizer, .handler⟩ :: σ))
    (hf : ∀ k, r.finalizer = some k → A k (⟨r.handler, r.finalizer, .finalizer⟩ :: σ)) (stage : TryStage)
    {resume : Option Handle} (ht : ∀ t, resume = some t → A t σ) (hR : Matches A σ R) :
    Matches A (⟨r.handler, r.finalizer, stage⟩ :: σ) ({ r with stage := stage, resume := resume } :: R) :=
  .cons (r := { r with stage := stage, resume := resume }) hh hf ht hR

lemma Matches.raised (hm : Matches A σ R) (hc : raised R = some c) : Good A c := by
  induction hm with
  | nil => cases hc
  | @cons r σ R hh hf ht hR ih =>
    unfold Regions.raised at hc
    split at hc
    · next h hs hhandler =>
      cases hc
      exact ⟨_, hh h hhandler, .turn hh hf .handler ht hR⟩
    · next f hs hhandler hfinalizer =>
      cases hc
      exact ⟨_, hf f hfinalizer, .turn hh hf .finalizer nofun hR⟩
    · next f hs hfinalizer =>
      cases hc
      exact ⟨_, hf f hfinalizer, .turn hh hf .finalizer nofun hR⟩
    · exact ih hc

/-! ### What a step keeps -/

/-- Every instruction of the code is one that `A` allows. -/
def Sound (A : Handle → Shape → Prop) (code : Code) (x : Handle) : Prop :=
  ∀ pc i n σ, fetch code x pc = some (i, n) → A pc σ → Allows A i n σ

variable (hs : Sound A code x) (hg : Good A c)
include hs hg

lemma Sound.legal : Legal code x c := by
  obtain ⟨σ, hσ, hm⟩ := hg
  intro i n hf
  cases hs _ _ _ _ hf hσ with
  | plain hr ho _ =>
    unfold allowed
    split
    · next h => rw [h] at hr; cases hr
    · next h => exact absurd h ho
    · rfl
  | call hr _ =>
    unfold allowed
    split
    · next h => rw [h] at hr; cases hr
    · next h => rw [h] at hr; cases hr
    · rfl
  | jump => rfl
  | protect => rfl
  | leave hstage _ =>
    generalize c.regions = R at hm
    cases hm
    simpa [allowed] using hstage
  | finish hstage =>
    generalize c.regions = R at hm
    cases hm
    simpa [allowed] using hstage

/-- **A step keeps the regions as expected.** -/
lemma Sound.step (hstep : Step code x c d) : Good A d := by
  obtain ⟨σ, hσ, hm⟩ := hg
  cases hstep with
  | next hf hr he =>
    cases hs _ _ _ _ hf hσ with
    | plain _ _ hn | call _ hn => exact ⟨σ, hn, hm⟩
    | jump | protect => rcases hr with hr | hr <;> cases hr
    | leave => cases he
    | finish => cases he
  | jump hf =>
    cases hs _ _ _ _ hf hσ with
    | plain hr => cases hr
    | call hr => cases hr
    | jump ht _ => exact ⟨σ, ht, hm⟩
  | pass hf htest =>
    cases hs _ _ _ _ hf hσ with
    | plain hr => cases hr
    | call hr => cases hr
    | jump _ hn => exact ⟨σ, hn htest, hm⟩
  | enter hf =>
    cases hs _ _ _ _ hf hσ with
    | plain hr => cases hr
    | call hr => cases hr
    | protect hn hh hfin =>
      exact ⟨_, hn, .cons (r := { handler := _, finalizer := _ }) hh hfin nofun hm⟩
  | leave hf hstage hnone =>
    cases hs _ _ _ _ hf hσ with
    | plain hr => cases hr
    | call hr => cases hr
    | leave _ ht =>
      cases hm with
      | cons _ _ _ hR => exact ⟨_, ht, hR⟩
  | finalize hf hstage hsome =>
    cases hs _ _ _ _ hf hσ with
    | plain hr => cases hr
    | call hr => cases hr
    | leave _ ht =>
      cases hm with
      | cons hh hfin _ hR => exact ⟨_, hfin _ hsome, .turn hh hfin .finalizer (fun t h => Option.some.inj h ▸ ht) hR⟩
  | finish hf ho hstage hresume =>
    cases hm with
    | cons _ _ ht hR => exact ⟨_, ht _ hresume, hR⟩
  | rethrow hf ho hstage hresume hc =>
    cases hm with
    | cons _ _ _ hR => exact hR.raised hc
  | raise hf hc => exact hm.raised hc

/-- **What every way through the code keeps.** -/
lemma Sound.leads (hl : Leads code x c d) : Good A d := by
  induction hl with
  | refl => exact hg
  | tail _ hstep ih => exact hs.step ih hstep

end Regions

end NeoScript
