import NeoScript.ValueType

/-!
# Refusals

Why the compiler refuses a request, and how it says so. A `Fault` is either such a refusal or a `misuse`: the
caller broke a rule that it must keep, and nothing can be said about what follows.
-/

namespace NeoScript

/-- A statement that only makes sense inside a loop. -/
inductive LoopExit where
  | breakLoop
  | continueLoop
  deriving DecidableEq, Repr

/-- A construct that is opened and closed in pairs. -/
inductive Construct where
  | method
  | branch
  | whileLoop
  | forLoop
  | loopElse
  | protectedBlock
  deriving DecidableEq, Repr

/-- Why a request is refused. -/
inductive CompileError where
  /-- A name that nothing declares. -/
  | unknownSymbol (name : String)
  /-- An operation that the operand's type does not have. -/
  | unsupported (operation : String) (operand : ValueType)
  /-- An integer that needs more than 32 bytes. -/
  | integerTooWide (bytes : Nat)
  | outsideLoop (exit : LoopExit)
  /-- A construct closed without being open, or opened inside another one of its kind. -/
  | unbalanced (construct : Construct)
  /-- More static fields than slots. -/
  | tooManyStatics
  | tooManyLocals (method : String)
  | tooManyArguments (method : String)
  /-- The index argument of a builtin has to be its last one and to follow its collection. -/
  | indexNotLast (builtin : String)
  | packedConstructor (className : String)
  | methodOpen (method : String)
  /-- A method that is called has no body. -/
  | missingBody (method : String)
  /-- An offset is too large and may not be widened. -/
  | jumpTooFar (address : Nat)
  /-- The front end gave up for a reason of its own. -/
  | rejected (message : String)
  deriving DecidableEq, Repr

/-- The word for a loop exit. -/
def LoopExit.text : LoopExit → String
  | breakLoop => "break"
  | continueLoop => "continue"

/-- The word for a construct. -/
def Construct.text : Construct → String
  | method => "method"
  | branch => "if"
  | whileLoop => "while"
  | forLoop => "for"
  | loopElse => "loop else"
  | protectedBlock => "try"

/-- What is said about a refusal. -/
def CompileError.message : CompileError → String
  | unknownSymbol name => "unknown symbol '" ++ name ++ "'"
  | unsupported operation operand =>
    "unsupported operation '" ++ operation ++ "' for type '" ++ operand.text ++ "'"
  | integerTooWide bytes =>
    "integer literal needs " ++ toString bytes ++ " bytes, the VM accepts at most 32"
  | outsideLoop exit => "'" ++ exit.text ++ "' outside loop"
  | unbalanced construct => "unbalanced '" ++ construct.text ++ "' construct"
  | tooManyStatics => "static fields exceed the 255 slot limit"
  | tooManyLocals method => "too many locals in '" ++ method ++ "'"
  | tooManyArguments method => "too many arguments in '" ++ method ++ "'"
  | indexNotLast builtin => "'" ++ builtin ++ "' declares an index argument that is not last"
  | packedConstructor className => "constructor of '" ++ className ++ "' cannot take packed arguments"
  | methodOpen method => "method '" ++ method ++ "' was never closed"
  | missingBody method => "'" ++ method ++ "' is called but was never generated"
  | jumpTooFar address =>
    "jump at address " ++ toString address ++ " does not fit its operand and widening is disabled"
  | rejected message => message

/-- Why a request has no result. -/
inductive Fault where
  /-- The request is refused and may be taken back. -/
  | refused (cause : CompileError)
  /-- The caller broke a rule of the interface. -/
  | misuse
  deriving DecidableEq, Repr

end NeoScript
