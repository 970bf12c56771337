import NeoScript.Contract.Service
import NeoScript.Literal
import NeoScript.Options
import NeoScript.Table

/-!
# Symbols

What is declared before code is generated: globals, methods, classes, events and the interfaces of other
contracts. Tables keep the order of declaration, because the place of a declaration is its slot.
-/

namespace NeoScript

/-- A variable of the whole script. -/
structure Variable where
  type : ValueType
  /-- The constant that it starts with. -/
  initial : Option Literal := none
  /-- Whether it is assigned more than once. -/
  reassigned : Bool := false
  /-- Whether its value outlives an invocation. -/
  persistent : Bool := false
  deriving Repr

/-- Where a global lives. -/
inductive GlobalKind where
  /-- In a static field. -/
  | static
  /-- Nowhere: every load is replaced by the constant. -/
  | inlined
  /-- In the storage of the contract. -/
  | stored
  deriving DecidableEq, Repr

/-- The variable that holds `value` and is never assigned again. -/
def Variable.constant (value : Literal) : Variable := { type := value.valueType, initial := some value }

/-- Where a global lives under the given options. -/
def Variable.kind (v : Variable) (options : Options) : GlobalKind :=
  if v.reassigned && v.persistent then .stored
  else if !v.reassigned && v.initial.isSome && options.inlinesGlobals then .inlined
  else .static

/-- A method of the script or of another contract. -/
structure Method where
  /-- The arguments in order; a constructor has the new object first. -/
  args : Table String ValueType := {}
  locals : Table String ValueType := {}
  /-- `none` for a method that leaves nothing. -/
  returns : ValueType := .any
  /-- Whether the method can be called from outside. -/
  isPublic : Bool := false
  /-- Whether the method is a constructor, which returns the new object. -/
  isInit : Bool := false
  /-- Whether the arguments arrive packed in one array. -/
  packsArgs : Bool := false

namespace Method

/-- The number of argument slots of an activation. -/
def argSlots (m : Method) : Nat := if m.packsArgs then 1 else m.args.size

/-- Whether a call leaves a value. -/
def returnsValue (m : Method) : Bool := m.returns != .none

end Method

/-- A class, whose instances are arrays with one place for each field. -/
structure UserClass where
  fields : Table String ValueType
  /-- The name of the constructor. -/
  init : Option String

/-- An event that a contract can announce. -/
structure Event where
  /-- The name that is announced. -/
  name : String
  args : List ValueType

/-- Another contract. -/
structure ContractInterface where
  hash : ContractHash
  methods : Table String Method

/-- Everything that is declared. -/
structure SymbolTable where
  globals : Table String Variable := {}
  methods : Table String Method := {}
  classes : Table String UserClass := {}
  events : Table String Event := {}
  contracts : Table String ContractInterface := {}

namespace SymbolTable

/-- The methods that can be called from outside, in the order of declaration. -/
def publicMethods (s : SymbolTable) : List String :=
  (s.methods.entries.filter fun e => e.2.isPublic).map Prod.fst

/-- The globals that live in static fields, in the order of declaration. -/
def staticGlobals (s : SymbolTable) (options : Options) : List String :=
  (s.globals.entries.filter fun e => e.2.kind options == .static).map Prod.fst

end SymbolTable

end NeoScript
