import NeoScript.CodeMap.Offset
import NeoScript.CodeMap.Reachability
import NeoScript.CodeMap.Span
import NeoScript.CompileError
import NeoScript.Contract.Symbols
import NeoScript.ShadowStack
import NeoScript.Trace

/-!
# Generators

A `Generator` is a compilation under way. It owns the code emitted so far, the types on the operand stack, and
the constructs that are still open. A reference to code that does not exist yet is a `Link`: a promise to point
at the next instruction that is emitted.

An `Emission` is an operation that may be refused. A refusal keeps what was emitted before it, so that it is the
caller who decides whether to go back to a `Checkpoint`.
-/

namespace NeoScript

/-- A promise about the next instruction that is emitted. -/
inductive Link where
  /-- A jump, a call or the end of a protected block goes there. -/
  | jump (source : Handle)
  /-- The handler of a protected block starts there. -/
  | handler (source : Handle)
  /-- The finalizer of a protected block starts there. -/
  | finalizer (source : Handle)
  /-- A method starts there. -/
  | entry (method : String)
  deriving DecidableEq, Repr

/-- The instruction that a link is written into. -/
def Link.source? : Link → Option Handle
  | jump source | handler source | finalizer source => some source
  | entry _ => none

/-! ### Open constructs -/

/-- The method whose body is being emitted. -/
structure Frame where
  name : String
  /-- Its declaration; the method that initializes static fields has none. -/
  method : Option Method

/-- Whether the method is a constructor. -/
def Frame.isInit (frame : Frame) : Bool := frame.method.any Method.isInit

/-- What is known about variables inside one region, beyond their declared types. -/
abbrev Scope := Table String ValueType

/-- A conditional statement. -/
structure OpenBranch where
  /-- The jump over the first body. -/
  jump : Handle
  /-- Once the second body is open: the jump over it, and the stack after the first body. -/
  other : Option (Handle × List ValueType) := none
  deriving Repr

/-- The kinds of loops. -/
inductive LoopKind where
  /-- Runs as long as a test holds, and knows the jump that closes the test once it is emitted. -/
  | conditional (bodyJump : Option Handle)
  /-- Walks a collection by position and keeps the collection and the index on the stack. -/
  | indexed (body : Handle)
  /-- Drives an iterator, which it keeps on the stack. -/
  | iterated (body : Handle)
  deriving DecidableEq, Repr

/-- The number of items that a loop keeps on the stack. -/
def LoopKind.kept : LoopKind → Nat
  | conditional _ => 0
  | indexed _ => 2
  | iterated _ => 1

/-- An exit from a loop that skips its `else` part. -/
structure Break where
  /-- Pushes the flag that tells this exit from the natural one. -/
  flag : Handle
  jump : Handle
  deriving Repr

/-- A loop. -/
structure OpenLoop where
  kind : LoopKind
  /-- The first jump, to the test. -/
  startJump : Handle
  continues : List Handle := []
  breaks : List Break := []
  /-- The number of protected blocks around the loop. -/
  tryDepth : Nat
  /-- The stack at the start of each round. -/
  stack : List ValueType
  deriving Repr

/-- The part of a protected block that is being emitted. -/
inductive TryStage where
  | body
  | handler
  | finalizer
  deriving DecidableEq, Repr

/-- A protected block. -/
structure OpenTry where
  /-- The instruction that enters the block. -/
  enter : Handle
  /-- The instructions that leave a part of it, all for the place behind the block. -/
  leaves : List Handle := []
  stack : List ValueType
  stage : TryStage := .body
  deriving Repr

/-! ### State -/

/-- A compilation under way. Lists of open constructs have the innermost one first. -/
structure Generator where
  symbols : SymbolTable
  options : Options
  code : CodeMap := {}
  stack : ShadowStack := {}
  /-- The links to the next instruction, in the order in which they are resolved. -/
  pending : List Link := []
  /-- The first instruction of each method that has a body. -/
  entries : Table String Handle := {}
  /-- The calls of each method that has no body yet. -/
  waiting : Table String (List Handle) := {}
  frame : Option Frame := none
  scopes : List Scope := []
  branches : List OpenBranch := []
  loops : List OpenLoop := []
  /-- For each open `else` part of a loop, the jump over it, if there is one. -/
  elseGuards : List (Option Handle) := []
  tries : List OpenTry := []
  tokens : List MethodToken := []
  trace : Trace := {}

/-- A state of a generator to go back to. -/
structure Checkpoint where
  /-- The number of bytes emitted. -/
  address : Nat
  stack : StackCheckpoint
  frame : Option Frame
  /-- The numbers of open constructs. -/
  scopes : Nat
  branches : Nat
  loops : Nat
  elseGuards : Nat
  tries : Nat
  tokens : Nat

/-- An operation on a generator that may be refused. -/
abbrev Emission := EStateM Fault Generator

/-- Refuses an operation. -/
def refuse {α : Type} (cause : CompileError) : Emission α := throw (.refused cause)

/-- Goes on with the value, or refuses. -/
def Emission.ofExcept {α : Type} : Except CompileError α → Emission α
  | .ok a => pure a
  | .error cause => refuse cause

/-- Goes on with the value, or refuses for want of one. -/
def Emission.ofOption {α : Type} (cause : CompileError) : Option α → Emission α
  | some a => pure a
  | none => refuse cause

namespace Generator

/-- The generator of a new compilation. -/
def start (symbols : SymbolTable) (options : Options) (trace : Trace) : Generator :=
  { symbols, options, trace }

/-- The generator without anything that was emitted; the trace goes on. -/
def reset (g : Generator) : Generator := start g.symbols g.options g.trace

/-! ### Static fields -/

/-- The method that initializes the static fields. -/
def initializer : String := "_initialize"

/-- The globals that live in static fields, or the refusal of more than 255 of them. -/
def staticSlots (g : Generator) : Except CompileError (List String) :=
  let names := g.symbols.staticGlobals g.options
  if names.length ≤ 255 then .ok names else .error .tooManyStatics

/-- The globals that have a slot; none has one if they are too many. -/
def statics (g : Generator) : List String :=
  match g.staticSlots with
  | .ok names => names
  | .error _ => []

/-! ### Queries -/

/-- The name of the open method. -/
def currentMethod? (g : Generator) : Option String := g.frame.map Frame.name

/-- Whether a method has a body. -/
def isGenerated (g : Generator) (name : String) : Bool := g.entries.contains name

/-- The type that the innermost region knows of a variable. -/
def narrowed? (g : Generator) (name : String) : Option ValueType := g.scopes.findSome? fun s => s.get? name

end Generator

end NeoScript
