import NeoScript.Proofs.Generator.Looping

/-!
# Commands keep the invariant

Every command takes a method under way to a method under way, and whatever a refused one leaves behind can still be
taken back. The calls of methods that commands emit are collected in a log.
-/

namespace NeoScript

open Generator List

variable {b : Generator} {f? : Option String} {log : List (Handle × String)} {g g' : Generator}

namespace Command

/-- The calls that a command emits on its way from `g` to `g'`: a call is the last instruction. -/
def calls (c : Command) (g g' : Generator) : List (Handle × String) :=
  ((c.callee? g.symbols).map fun name => (g'.code.nextHandle - 1, name)).toList

end Command

namespace Generator

lemma nextHandle_emitCall (g : Generator) (name : String) : (g.emitCall name).code.nextHandle = g.code.nextHandle + 1 := by
  unfold emitCall
  split
  · exact nextHandle_append _ _
  · dsimp only
    split <;> exact nextHandle_append _ _

lemma ready_emitCall (h : Ready b f? log g) (name : String) :
    Ready b f? (((g.emitCall name).code.nextHandle - 1, name) :: log) (g.emitCall name) ∧
      b.code.nextHandle ≤ (g.emitCall name).code.nextHandle - 1 := by
  obtain ⟨hf, new, hs⟩ := h
  rw [nextHandle_emitCall, Nat.add_sub_cancel]
  refine ⟨⟨?_, _, hs.emitCall name⟩, hs.grown⟩
  unfold Generator.emitCall
  split
  · exact (frame_append _ _).symm ▸ hf
  · dsimp only
    split <;> exact (frame_append _ _).symm ▸ hf

end Generator

namespace Command

lemma ends_run_of_invokes {c : Command} (h : Ready b f? log g) (hc : c.invokes = true) : Ends c.run g
      (fun _ g' => Ready b f? (c.calls g g' ++ log) g' ∧ ∀ e ∈ c.calls g g', b.code.nextHandle ≤ e.1)
      (Halted b f? log) := by
  refine (ends_invoke hc g).mono ?_ fun g' hg' => hg' ▸ h.halted
  rintro - g' ⟨p, hp, s, rfl⟩
  rw [calls]
  cases hcallee : c.callee? g.symbols with
  | none =>
    obtain ⟨hf, new, hs⟩ := hp.ready h
    exact ⟨⟨hf, new, hs.still rfl⟩, nofun⟩
  | some name =>
    obtain ⟨⟨hf, new, hs⟩, hle⟩ := ready_emitCall (hp.ready h) name
    exact ⟨⟨hf, new, hs.still rfl⟩, fun e he => mem_singleton.1 he ▸ hle⟩

/-- **Every command keeps a method under way**, and adds the call that it emits to the log. -/
lemma ends_run (h : Ready b f? log g) (c : Command) : Ends c.run g
      (fun _ g' => Ready b f? (c.calls g g' ++ log) g' ∧ ∀ e ∈ c.calls g g', b.code.nextHandle ≤ e.1)
      (Halted b f? log) := by
  have hnone (hc : c.callee? g.symbols = none) (hx : Ends c.run g (fun _ => Ready b f? log) (Halted b f? log)) :
      Ends c.run g
        (fun _ g' => Ready b f? (c.calls g g' ++ log) g' ∧ ∀ e ∈ c.calls g g', b.code.nextHandle ≤ e.1)
        (Halted b f? log) := by
    refine hx.mono (fun _ g' h' => ?_) fun _ h' => h'
    rw [calls, hc]
    exact ⟨h', nofun⟩
  by_cases hc : c.isStraight = true
  · rcases straight_run hc with hx | ⟨name, t, rfl⟩
    · exact hnone (by cases c <;> simp_all [isStraight, callee?]) (hx.ready h)
    · obtain ⟨hf, new, hs⟩ := h
      exact hnone rfl (.modify ⟨hf, new, hs.still rfl⟩)
  · cases c with
    | beginIf => exact hnone rfl (.modify (ready_beginIf h))
    | beginElse => exact hnone rfl (ends_beginElse h)
    | endIf => exact hnone rfl (ends_endIf h)
    | beginWhile => exact hnone rfl (.modify (ready_beginWhile h))
    | beginWhileBody => exact hnone rfl (ends_beginWhileBody h)
    | endWhile hasElse => exact hnone rfl (ends_endWhile hasElse h)
    | beginFor => exact hnone rfl (ends_beginFor h)
    | endFor hasElse => exact hnone rfl (ends_endFor hasElse h)
    | endLoopElse => exact hnone rfl (ends_endLoopElse h)
    | breakLoop => exact hnone rfl (ends_breakLoop h)
    | continueLoop => exact hnone rfl (ends_continueLoop h)
    | beginTry => exact hnone rfl (.modify (ready_beginTry h))
    | beginHandler name => exact hnone rfl (ends_beginHandler name h)
    | endTry hasFinalizer => exact hnone rfl (ends_endTry hasFinalizer h)
    | endFinalizer => exact hnone rfl (ends_endFinalizer h)
    | call _ | newObject _ => exact ends_run_of_invokes h rfl
    | _ => exact absurd rfl hc

/-! ### Bodies -/

/-- The calls that commands emit, the latest first. -/
def callsOf : List Command → Generator → List (Handle × String)
  | [], _ => []
  | c :: cs, g =>
    match c.run.run g with
    | .ok _ g' => callsOf cs g' ++ c.calls g g'
    | .error _ _ => []

/-- The state in which a body was refused: some calls may have been emitted since the method was opened. -/
def Refused (b : Generator) (f? : Option String) (log : List (Handle × String)) (g : Generator) : Prop :=
  ∃ more, (∀ e ∈ more, b.code.nextHandle ≤ e.1) ∧ Halted b f? (more ++ log) g

/-- **A body keeps a method under way**, and adds the calls that it emits to the log. -/
lemma ends_runAll (cs : List Command) (h : Ready b f? log g) : Ends (runAll cs) g
      (fun _ g' => Ready b f? (callsOf cs g ++ log) g' ∧ ∀ e ∈ callsOf cs g, b.code.nextHandle ≤ e.1)
      (Refused b f? log) := by
  induction cs generalizing log g with
  | nil => exact .pure ⟨h, nofun⟩
  | cons c cs ih =>
    refine ((ends_run h c).mono (fun _ _ h' => h') fun g' h' => ⟨[], by simp, h'⟩).remember.bind ?_
    rintro ⟨⟩ g' ⟨hrun, hready, hlate⟩
    have hcalls : callsOf (c :: cs) g = callsOf cs g' ++ c.calls g g' := by rw [callsOf, hrun]
    refine (ih hready).mono (fun _ g'' h'' => ?_) fun g'' h'' => ?_
    · rw [hcalls, append_assoc]
      refine ⟨h''.1, fun e he => ?_⟩
      exact (mem_append.1 he).elim (h''.2 e) (hlate e)
    · obtain ⟨more, hmore, hhalt⟩ := h''
      refine ⟨more ++ c.calls g g', fun e he => ?_, by rw [append_assoc]; exact hhalt⟩
      exact (mem_append.1 he).elim (hmore e) (hlate e)

end Command

end NeoScript
