import NeoScript.Command
import NeoScript.Generator.Finish

/-!
# Sessions

A session compiles one contract, method by method. A method whose body is refused is taken back and recorded as
a failure, and the compilation goes on with the next one.

The body of a method may run in any monad, so that a caller can watch it step by step.
-/

namespace NeoScript

/-- One compilation from the first method to the finished unit. -/
structure Session where
  generator : Generator
  /-- The methods that were left out, in order. -/
  failures : List MethodFailure := []

namespace Session

/-- A new compilation. -/
def start (symbols : SymbolTable) (options : Options) (trace : Trace) : Session :=
  { generator := .start symbols options trace }

/-- Drops everything that was generated. -/
def reset (s : Session) : Session := { generator := s.generator.reset }

/-! ### Methods -/

/-- The outcome of an operation on the generator. -/
abbrev Outcome := EStateM.Result Fault Generator Unit

/-- Goes on with the generator unless the outcome is a fault. -/
def andThen {m : Type → Type} [Monad m] (r : Outcome) (next : Generator → m Outcome) : m Outcome :=
  match r with
  | .ok _ g => next g
  | .error fault g => pure (.error fault g)

/-- Ends the compilation of a method: a refused one is taken back and recorded. -/
def conclude (s : Session) (name : String) (c : Checkpoint) : Outcome → EStateM.Result Fault Session Unit
  | .ok _ g => .ok () { s with generator := g }
  | .error (.refused cause) g =>
    .error (.refused cause)
      { generator := g.rollback c, failures := s.failures ++ [⟨name, cause.message⟩] }
  | .error .misuse g => .error .misuse { s with generator := g }

/-- Compiles a method with a body that runs in `m`. -/
def generateM {m : Type → Type} [Monad m] (s : Session) (name : String) (body : Generator → m Outcome) :
    m (EStateM.Result Fault Session Unit) := do
  let checkpoint := s.generator.checkpoint
  let opened := (Generator.openMethod name).run s.generator
  let ran ← andThen opened body
  let closed ← andThen ran fun g => pure (Generator.closeMethod.run g)
  return s.conclude name checkpoint closed

/-- Compiles a method. -/
def generate (s : Session) (name : String) (body : Emission Unit) : EStateM.Result Fault Session Unit :=
  Id.run (s.generateM name fun g => pure (body.run g))

/-! ### Static fields -/

/-- Stores the initial constants of globals. -/
def storeConstants : List (String × Literal) → Emission Unit
  | [] => pure ()
  | (name, value) :: rest => do
    Generator.literal value
    Generator.store name
    storeConstants rest

/-- The static fields that start with a constant. -/
def constants (g : Generator) : List (String × Literal) :=
  g.statics.filterMap fun name =>
    ((g.symbols.globals.get? name).bind Variable.initial).map fun value => (name, value)

/-- Compiles the method that initializes the static fields. After the constants comes a body that runs in `m`. -/
def generateInitializerM {m : Type → Type} [Monad m] (s : Session) (body : Generator → m Outcome) :
    m (EStateM.Result Fault Session Unit) :=
  s.generateM Generator.initializer fun g => andThen ((storeConstants (constants g)).run g) body

/-- Compiles the method that initializes the static fields. -/
def generateInitializer (s : Session) (body : Emission Unit) : EStateM.Result Fault Session Unit :=
  Id.run (s.generateInitializerM fun g => pure (body.run g))

/-! ### Finishing -/

/-- Makes sure that static fields are initialized. -/
def ensureInitializer (s : Session) : EStateM.Result Fault Session Unit :=
  if s.generator.statics.isEmpty || s.generator.isGenerated Generator.initializer then .ok () s
  else s.generateInitializer (pure ())

/-- Finishes the compilation. -/
def finish (s : Session) (choice : Generator.Choice := .first) : EStateM.Result Fault Session CompiledUnit :=
  match s.ensureInitializer with
  | .error fault s => .error fault s
  | .ok _ s =>
    match (Generator.finish choice s.failures).run s.generator with
    | .ok u g => .ok u { s with generator := g }
    | .error fault g => .error fault { s with generator := g }

end Session

end NeoScript
