import NeoScript.Bytes
import NeoScript.ValueType

/-!
# Literals

The constant values that a program can write down, and the type of each.
-/

namespace NeoScript

/-- A constant value. -/
inductive Literal where
  | none
  | bool (value : Bool)
  | int (value : Int)
  | str (value : String)
  | bytes (value : Bytes)
  | sequence (items : List Literal)
  /-- Keys and values in the order written; a key may be repeated. -/
  | mapping (pairs : List (Literal × Literal))
  deriving Repr

namespace Literal

instance : Inhabited Literal := ⟨none⟩

/-- The type of an integer constant. -/
def intType (v : Int) : ValueType := if v < 0 then .int else .nonNegInt

mutual

/-- The type of a constant. -/
def valueType : Literal → ValueType
  | none => .none
  | bool _ => .bool
  | int v => intType v
  | str _ => .str
  | bytes _ => .bytes
  | sequence items => .list (.joinAll (itemTypes items))
  | mapping pairs => .dict (.joinAll (keyTypes pairs)) (.joinAll (valueTypes pairs))

/-- The types of the items of a sequence. -/
def itemTypes : List Literal → List ValueType
  | [] => []
  | item :: items => item.valueType :: itemTypes items

/-- The types of the keys of a mapping. -/
def keyTypes : List (Literal × Literal) → List ValueType
  | [] => []
  | (key, _) :: pairs => key.valueType :: keyTypes pairs

/-- The types of the values of a mapping. -/
def valueTypes : List (Literal × Literal) → List ValueType
  | [] => []
  | (_, value) :: pairs => value.valueType :: valueTypes pairs

end

end Literal

end NeoScript
