import NeoScript.Bytes

/-!
# Options of a compilation
-/

namespace NeoScript

/-- How much the generated code is simplified. -/
inductive OptimizationLevel where
  | none
  /-- Unreachable code is removed. -/
  | minimal
  /-- Globals that are written once are replaced by their value. -/
  | default
  | aggressive
  deriving DecidableEq, Repr

namespace OptimizationLevel

/-- The rank of a level. -/
def rank : OptimizationLevel → Nat
  | none => 0
  | minimal => 1
  | default => 2
  | aggressive => 3

/-- Whether a level does at least what `other` does. -/
def atLeast (level other : OptimizationLevel) : Bool := other.rank ≤ level.rank

/-- The name of a level. -/
def text : OptimizationLevel → String
  | none => "none"
  | minimal => "minimal"
  | default => "default"
  | aggressive => "aggressive"

/-- The level of a name. -/
def ofText? (s : String) : Option OptimizationLevel :=
  [none, minimal, default, aggressive].find? fun level => level.text == s

end OptimizationLevel

/-- The options of one compilation. -/
structure Options where
  level : OptimizationLevel := .default
  /-- Whether jumps that do not fit get four-byte offsets. -/
  widenJumps : Bool := true
  /-- What the storage key of a stored global starts with. -/
  storageRoot : Bytes := []
  deriving DecidableEq, Repr

namespace Options

/-- Whether constant globals are replaced by their value. -/
def inlinesGlobals (o : Options) : Bool := o.level.atLeast .default

/-- Whether unreachable code is removed. -/
def removesDeadCode (o : Options) : Bool := o.level.atLeast .minimal

end Options

end NeoScript
