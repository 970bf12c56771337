import NeoScript.Proofs.Command.Sound
import NeoScript.Proofs.Generator.Ahead
import NeoScript.Proofs.Generator.Settings

/-!
# Linear commands

A command is linear if it opens, closes and leaves no construct: literals, casts, loads, stores, operators, subscripts,
calls and the like. Linear commands emit code behind what is there, and besides may take back a constant that was just
pushed.
-/

namespace NeoScript

open Generator List

variable {b c g : Generator} {f? : Option String} {log log' : List (Handle × String)} {Y : Handle → Prop}
  {old' : List Handle}

namespace Generator

lemma Ahead.of_core {new : List Handle} {g' : Generator} (ha : Ahead b new g) (h : g'.core = g.core) : Ahead b new g' :=
  ha.still (congrArg Generator.code h :) (congrArg Generator.pending h :) (congrArg Generator.entries h :)
    (congrArg Generator.waiting h :) (congrArg Generator.frame h :)

end Generator

namespace Command

/-- Whether a command opens, closes and leaves no construct. -/
def isLinear : Command → Bool
  | call _ | newObject _ => true
  | c => c.isStraight

lemma isLinear_cases {c : Command} (hc : c.isLinear = true) : c.isStraight = true ∨ c.invokes = true := by
  cases c with
  | call name | newObject className => exact .inr rfl
  | _ => exact .inl hc

/-! ### What linear commands keep -/

/-- A property of a method under way that straight steps and calls keep. -/
structure KeptByLinear (c : Generator) (f? : Option String) (P : Opcode → Prop) (Q : Generator → Prop) : Prop where
  moves : ∀ log, KeptByMoves P (Ready c f? log) Q
  call : ∀ {log g} name, Ready c f? log g → Q g → Q (g.emitCall name)
  still : ∀ {log g g'}, Ready c f? log g → Q g → g'.core = g.core → Q g'

namespace KeptByLinear

variable {P : Opcode → Prop} {Q : Generator → Prop}

/-- **What straight steps and calls keep, linear commands keep.** -/
lemma run {cmd : Command} (hk : KeptByLinear c f? P Q) (hc : cmd.isLinear = true) (hP : cmd.Inlines P)
    (h : Ready c f? log g) (hg : Q g) : Ends cmd.run g (fun _ => Q) fun _ => True := by
  rcases isLinear_cases hc with hc | hc
  · rcases straight_run_of_inlines hc hP with hx | ⟨name, t, rfl⟩
    · exact h.straight hx (hk.moves log) hg
    · exact .modify (hk.still h hg rfl)
  · refine (ends_invoke hc g).mono ?_ fun _ _ => trivial
    rintro - g' ⟨p, hp, s, rfl⟩
    have hready := hp.ready h
    have hstep := h.move hp (hk.moves log) hg
    cases cmd.callee? g.symbols with
    | none => exact hk.still hready hstep rfl
    | some name => exact hk.still (ready_emitCall hready name).1 (hk.call name hready hstep) rfl

lemma runAll {cs : List Command} (hk : KeptByLinear c f? P Q) (hcs : ∀ cmd ∈ cs, cmd.isLinear = true)
    (hP : ∀ cmd ∈ cs, cmd.Inlines P) (h : Ready c f? log g) (hg : Q g) :
    Ends (Command.runAll cs) g (fun _ g' => Q g' ∧ ∃ log, Ready c f? log g') fun _ => True := by
  induction cs generalizing log g with
  | nil => exact .pure ⟨hg, log, h⟩
  | cons cmd cs ih =>
    refine ((hk.run (hcs cmd mem_cons_self) (hP cmd mem_cons_self) h hg).and (ends_run h cmd)).bind ?_
    rintro _ g' ⟨hg', h', -⟩
    exact ih (fun d hd => hcs d (mem_cons_of_mem _ hd)) (fun d hd => hP d (mem_cons_of_mem _ hd)) h' hg'

end KeptByLinear

/-- Linear commands go on from any earlier state and leave the open constructs alone. -/
lemma keptByLinear_onward (hb : Sound c f? log' Y old' b) :
    KeptByLinear c f? (fun _ => True) fun g' => Onward b g' ∧ g'.constructs = g.constructs := by
  have hstill : ∀ {log k k'}, Ready c f? log k → Onward b k ∧ k.constructs = g.constructs → k'.core = k.core →
      Onward b k' ∧ k'.constructs = g.constructs := fun ⟨_, _, hs⟩ h hcore =>
    ⟨h.1.ahead hb hs ((Ahead.refl _).of_core hcore), (congrArg constructs hcore).trans h.2⟩
  have hcontext : ∀ {k k' : Generator}, k.constructs = g.constructs → k'.context = k.context → k'.constructs = g.constructs :=
    fun h hc => (constructs_of_context hc).trans h
  refine ⟨fun log => ⟨?_, ?_, fun _ h hg => hstill h hg rfl, fun _ h hg => hstill h hg rfl, ?_⟩, ?_, hstill⟩
  · exact fun ⟨_, _, hs⟩ ho _ _ _ => ⟨ho.1.ahead hb hs (.append hs.laid _), hcontext ho.2 (context_append _ _)⟩
  · exact fun ⟨_, _, hs⟩ ho _ => ⟨ho.1.ahead hb hs (.emitSnippet hs.laid _), hcontext ho.2 (Sound.context_emitSnippet _ _)⟩
  · exact fun ⟨_, _, hs⟩ ho hq hl => ⟨ho.1.detach hb hs hq hl, hcontext ho.2 (context_removeInstruction _ _)⟩
  · exact fun name ⟨_, _, hs⟩ ho => ⟨ho.1.ahead hb hs (.emitCall hs.laid name), hcontext ho.2 (context_emitCall _ _)⟩

lemma ends_run_onward {cmd : Command} (hc : cmd.isLinear = true) (hb : Sound c f? log' Y old' b)
    (h : Ready c f? log g) (ho : Onward b g) :
    Ends cmd.run g (fun _ g' => Onward b g' ∧ g'.constructs = g.constructs) fun _ => True :=
  (keptByLinear_onward hb).run hc (inlines_true cmd) h ⟨ho, rfl⟩

/-- **Linear commands go on from any earlier state** and leave the open constructs alone. -/
lemma ends_runAll_onward (cs : List Command) (hcs : ∀ cmd ∈ cs, cmd.isLinear = true) (hb : Sound c f? log' Y old' b)
    (h : Ready c f? log g) (ho : Onward b g) :
    Ends (runAll cs) g (fun _ g' => Onward b g' ∧ g'.constructs = g.constructs ∧ ∃ log, Ready c f? log g')
      fun _ => True :=
  ((keptByLinear_onward hb).runAll hcs (fun cmd _ => inlines_true cmd) h ⟨ho, rfl⟩).mono
    (fun _ _ h => ⟨h.1.1, h.1.2, h.2⟩) fun _ h => h

end Command

end NeoScript
