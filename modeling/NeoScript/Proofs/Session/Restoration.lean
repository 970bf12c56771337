import NeoScript.Proofs.Session.Calls

/-!
# Refused methods leave the code as it was

A refused call is taken back: whatever its body had emitted, moved, removed or linked, the live instructions are those
from before the call, with their handles, addresses and targets, and so are the stack and all that can be open.

This holds in every state that a session can reach, also where an earlier call left a link behind.
-/

namespace NeoScript

open Generator

namespace CodeMap

/-- Two maps with the same live instructions list the same instructions and take the same room. -/
lemma Laid.same_instructions {m m' : CodeMap} (hl : m.Laid) (hl' : m'.Laid) (hlive : m'.live = m.live)
    (hsame : ∀ h ∈ m.live, m'.instruction? h = m.instruction? h) : m'.instructions = m.instructions ∧ m'.size = m.size := by
  have hsize : ∀ h ∈ m.live, sizeOf m'.arena h = sizeOf m.arena h := by
    intro h hm
    exact sizeOf_congr (congrArg _ (hsame h hm))
  have hplaced : ∀ (hs : List Handle) (a : Nat), (∀ h ∈ hs, h ∈ m.live) →
      placed m'.arena a hs = placed m.arena a hs := by
    intro hs
    induction hs with
    | nil => exact fun _ _ => rfl
    | cons h hs ih =>
      intro a hsub
      have hm := hsub h List.mem_cons_self
      have hinst : m'.arena[h]? = m.arena[h]? := hsame h hm
      rw [placed, placed, hinst, hsize h hm, ih _ fun x hx => hsub x (List.mem_cons_of_mem _ hx)]
  constructor
  · rw [hl'.instructions_eq, hl.instructions_eq, hlive]
    exact hplaced m.live 0 fun _ hm => hm
  · rw [hl'.size, hl.size, hlive]
    exact span_congr hsize

end CodeMap

namespace Session

variable {s s' : Session} {c : Call} {marks : List Handle}

/-- A call that is compiled closes the region of its method. -/
lemma scopes_perform_ok (hb : Idle marks s.generator) (hscopes : s.generator.scopes = [])
    (h : s.perform c = .ok () s') : s'.generator.scopes = [] := by
  have hconstructs := hb.constructs
  simp only [Generator.constructs, Prod.mk.injEq] at hconstructs
  have hregions : s.generator.regions = 0 := by
    rw [regions, hconstructs.2.1, hconstructs.2.2.1]
    rfl
  exact ((c.ends_emission_level s.generator).of_ok (perform_ok h)).2 hscopes hregions

/-- A call that is refused drops the regions that it opened. -/
lemma scopes_perform_refused {cause : CompileError} (hscopes : s.generator.scopes = [])
    (h : s.perform c = .error (.refused cause) s') : s'.generator.scopes = [] := by
  obtain ⟨g, -, heq⟩ := perform_refused h
  rw [heq]
  change outermost s.generator.scopes.length _ = []
  rw [hscopes]
  exact outermost_zero _

/-- The code after a refused call is the code before it. -/
lemma code_perform_refused {cause : CompileError} (hb : Idle marks s.generator)
    (h : s.perform c = .error (.refused cause) s') : s'.generator.code.instructions = s.generator.code.instructions ∧
      s'.generator.code.size = s.generator.code.size := by
  have hends := Call.ends_emission (c := c) (hb.sound_opened c.name) nofun
  obtain ⟨g, hrun, heq⟩ := perform_refused h
  -- Wherever the call stopped, what it had emitted stands behind the old code and can be cleared.
  have hcleared : ∃ new, Cleared s.generator new g (g.truncated s.generator.checkpoint) := by
    rcases hends.of_refused hrun with rfl | ⟨rfl, -⟩ | ⟨more, -, -, X, new, hs⟩
    · exact ⟨_, hb.sound_self.truncated⟩
    · exact ⟨_, (hb.sound_opened c.name).truncated⟩
    · exact ⟨_, hs.truncated⟩
  obtain ⟨new, hc⟩ := hcleared
  rw [heq, (g.rollback_eq s.generator.checkpoint).1]
  exact hb.laid.same_instructions hc.laid hc.live hc.old

end Session

/-- Between calls no region is open. -/
lemma Journal.scopes_run {j j' : Journal} {cs : List Call} (hb : Idle j.marks j.session.generator)
    (hscopes : j.session.generator.scopes = []) (hj : j.run cs = some j') : j'.session.generator.scopes = [] := by
  induction cs generalizing j with
  | nil =>
    cases hj
    exact hscopes
  | cons c cs ih =>
    obtain ⟨j1, h1, hrun⟩ := Option.bind_eq_some_iff.1 hj
    refine ih (idle_step hb h1) ?_ hrun
    unfold step at h1
    dsimp only at h1
    split at h1
    · next hs =>
      cases h1
      exact Session.scopes_perform_ok hb hscopes hs
    · next hs =>
      cases h1
      exact Session.scopes_perform_refused hscopes hs
    · cases h1

/-- **A refused call leaves the code as it was.** In every state that a session reaches, a call that is refused leaves
the live instructions with their handles, addresses and targets, the size of the code, the stack, the open method and
constructs, the regions and the tokens that were there before. -/
theorem refused_call_restores {symbols : SymbolTable} {options : Options} {trace : Trace} {calls : List Call}
    {j : Journal} {c : Call} {cause : CompileError} {s : Session}
    (hrun : (Journal.start symbols options trace).run calls = some j)
    (hrefused : j.session.perform c = .error (.refused cause) s) :
    s.generator.code.instructions = j.session.generator.code.instructions ∧
      s.generator.code.size = j.session.generator.code.size ∧
      s.generator.stack.items = j.session.generator.stack.items ∧
      s.generator.constructs = j.session.generator.constructs ∧
      s.generator.scopes = j.session.generator.scopes ∧
      s.generator.tokens = j.session.generator.tokens := by
  have hidle := Journal.idle_run (idle_start symbols options trace) hrun
  have hscopes := Journal.scopes_run (idle_start symbols options trace) rfl hrun
  obtain ⟨hcode, hsize⟩ := Session.code_perform_refused hidle hrefused
  obtain ⟨g, hemit, heq⟩ := Session.perform_refused hrefused
  refine ⟨hcode, hsize, ?_, ?_, ?_, ?_⟩
  · rw [heq]
    rfl
  · exact (Session.idle_perform_refused hidle hrefused).constructs.trans hidle.constructs.symm
  · rw [Session.scopes_perform_refused hscopes hrefused, hscopes]
  · rw [heq]
    exact tokens_rollback ((c.ends_emission_level j.session.generator).of_refused hemit).tokens

/-- A method that is refused after a loop whose test was moved. -/
def loopingThenRefused : Call :=
  .method "callee" [.beginWhile, .literal (.bool true), .beginWhileBody, .breakLoop, .endWhile true, .endLoopElse,
    .integer 1, .load "missing"]

/-- The call of a method waits again after the method was refused. -/
theorem refused_call_restores_caller :
    ∃ j cause s, (Journal.start callerAndCallee {} {}).run [.method "caller" [.call "callee", .returnFrom true]] =
        some j ∧
      j.session.perform loopingThenRefused = .error (.refused cause) s ∧ j.session.generator.code.length = 2 ∧
      s.generator.code.instructions = j.session.generator.code.instructions ∧
      s.generator.stack.items = j.session.generator.stack.items := by
  have hsome : ((Journal.start callerAndCallee {} {}).run [.method "caller" [.call "callee", .returnFrom true]] |>.any
      fun j => j.session.generator.code.length = 2 &&
        match j.session.perform loopingThenRefused with
        | .error (.refused _) _ => true
        | _ => false) = true := by decide +kernel
  obtain ⟨j, hrun, h⟩ := (Option.any_eq_true _ _).1 hsome
  rw [Bool.and_eq_true] at h
  cases hperform : j.session.perform loopingThenRefused with
  | ok a s =>
    rw [hperform] at h
    cases h.2
  | error fault s =>
    cases fault with
    | misuse =>
      rw [hperform] at h
      cases h.2
    | refused cause =>
      have hall := refused_call_restores hrun hperform
      exact ⟨j, cause, s, hrun, hperform, of_decide_eq_true h.1, hall.1, hall.2.2.1⟩

end NeoScript
