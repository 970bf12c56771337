import NeoScript.Proofs.Command.Sound

/-!
# Runs of a session

A session is driven by calls, each of which compiles one method from a list of commands. A refused call is taken
back and the session goes on; a misuse ends it. A `Journal` keeps, besides the session, what the program itself
does not: which instructions belong to which call, which calls of methods stand in code that was not taken back, and
where the body of each method starts.
-/

namespace NeoScript

open Generator

/-- A call on a session: the compilation of one method. -/
inductive Call where
  | method (name : String) (body : List Command)
  | initializer (body : List Command)

namespace Call

/-- The method that is compiled. -/
def name : Call → String
  | method name _ => name
  | initializer _ => Generator.initializer

/-- The body of the method. -/
def body : Call → List Command
  | method _ body | initializer body => body

/-- What is emitted between the opening of the method and its body. -/
def prologue : Call → Emission Unit
  | method _ _ => pure ()
  | initializer _ => do Session.storeConstants (Session.constants (← get))

/-- The opening of the method, with what precedes the body. -/
def opening (c : Call) : Emission Unit := do
  openMethod c.name
  c.prologue

/-- All that a call does with the generator, unless it is taken back. -/
def emission (c : Call) : Emission Unit := do
  c.opening
  Command.runAll c.body
  closeMethod

/-- The calls of methods in the body, the latest first. -/
def callsFrom (c : Call) (g : Generator) : List (Handle × String) :=
  match c.opening.run g with
  | .ok _ g' => Command.callsOf c.body g'
  | .error _ _ => []

end Call

/-- Carries out a call. -/
def Session.perform (s : Session) : Call → EStateM.Result Fault Session Unit
  | .method name body => s.generate name (Command.runAll body)
  | .initializer body => s.generateInitializer (Command.runAll body)

lemma Session.generate_eq (s : Session) (name : String) (body : Emission Unit) :
    s.generate name body = s.conclude name s.generator.checkpoint
      ((do openMethod name; body; closeMethod : Emission Unit).run s.generator) := by
  simp only [generate, generateM, run_bind]
  cases (openMethod name).run s.generator with
  | error e g => rfl
  | ok a g =>
    simp only [andThen]
    cases h : body.run g with
    | error e g' => rfl
    | ok a g' => rfl

lemma Session.generateInitializer_eq (s : Session) (body : Emission Unit) : s.generateInitializer body =
      s.generate initializer (do storeConstants (constants (← get)); body) := by
  simp only [generateInitializer, generateInitializerM, generate, generateM]
  cases (openMethod initializer).run s.generator with
  | error e g => rfl
  | ok a g =>
    simp only [andThen, run_bind, show EStateM.run get g = .ok g g from rfl]
    cases (storeConstants (constants g)).run g <;> rfl

lemma Session.perform_eq (s : Session) (c : Call) :
    s.perform c = s.conclude c.name s.generator.checkpoint (c.emission.run s.generator) := by
  cases c with
  | method name body =>
    rw [perform, generate_eq]
    simp [Call.emission, Call.opening, Call.prologue, Call.name, Call.body]
  | initializer body =>
    rw [perform, generateInitializer_eq, generate_eq]
    simp [Call.emission, Call.opening, Call.prologue, Call.name, Call.body]

lemma Session.perform_ok {s s' : Session} {c : Call} (h : s.perform c = .ok () s') :
    c.emission.run s.generator = .ok () s'.generator := by
  rw [perform_eq] at h
  cases hrun : c.emission.run s.generator with
  | ok a g =>
    rw [hrun] at h
    cases h
    rfl
  | error fault g =>
    rw [hrun] at h
    cases fault <;> cases h

lemma Session.perform_refused {s s' : Session} {c : Call} {cause : CompileError}
    (h : s.perform c = .error (.refused cause) s') : ∃ g, c.emission.run s.generator = .error (.refused cause) g ∧
      s'.generator = g.rollback s.generator.checkpoint := by
  rw [perform_eq] at h
  cases hrun : c.emission.run s.generator with
  | ok a g =>
    rw [hrun] at h
    cases h
  | error fault g =>
    rw [hrun] at h
    cases fault with
    | misuse => cases h
    | refused cause =>
      cases h
      exact ⟨g, rfl, rfl⟩

/-- A run of calls. -/
structure Journal where
  session : Session
  /-- The next handle at the start of each call, the latest first. -/
  marks : List Handle := []
  /-- The calls of methods in code that was not taken back, each with the method that it calls. -/
  log : List (Handle × String) := []
  /-- The methods that were compiled, each with the first instruction of its body. -/
  bodies : List (String × Handle) := []

namespace Journal

/-- The run before any call. -/
def start (symbols : SymbolTable) (options : Options) (trace : Trace) : Journal :=
  { session := .start symbols options trace }

/-- The number of the call that emitted an instruction. What is emitted after the run belongs to one more call. -/
def callOf (j : Journal) (h : Handle) : Nat :=
  (j.session.generator.code.nextHandle :: j.marks).countP fun b => b ≤ h

/-- The first instruction behind the code of `g`. -/
def firstAfter? (g g' : Generator) : Option Handle := g'.code.order[g.code.length]?

/-- Carries out a call and keeps the journal; there is no journal after a misuse. -/
def step (j : Journal) (c : Call) : Option Journal :=
  let g := j.session.generator
  let marks := g.code.nextHandle :: j.marks
  match j.session.perform c with
  | .ok _ s =>
    some {
      session := s
      marks
      log := c.callsFrom g ++ j.log
      bodies := ((firstAfter? g s.generator).map fun h => (c.name, h)).toList ++ j.bodies }
  | .error (.refused _) s => some { j with session := s, marks }
  | .error .misuse _ => none

/-- Carries out calls. -/
def run (j : Journal) : List Call → Option Journal
  | [] => some j
  | c :: cs => (j.step c).bind fun j' => j'.run cs

/-- The run with the implicit initializer if one is needed; there is none if the initializer is refused. -/
def settle? (j : Journal) : Option Journal :=
  if j.session.generator.statics.isEmpty || j.session.generator.isGenerated Generator.initializer then some j
  else
    match j.session.perform (.initializer []) with
    | .ok _ _ => j.step (.initializer [])
    | .error _ _ => none

/-- The unit and the session that a run ends with, if there is a unit. -/
def unit? (j : Journal) : Option (CompiledUnit × Session) :=
  match j.session.finish with
  | .ok u s => some (u, s)
  | .error _ _ => none

lemma finish_of_unit? {j : Journal} {u : CompiledUnit} {s : Session} (h : j.unit? = some (u, s)) :
    j.session.finish = .ok u s := by
  unfold unit? at h
  split at h
  · next hf =>
    cases h
    exact hf
  · cases h

end Journal

end NeoScript
