import Std.Data.HashSet
import NeoScript.Script.Decoding
import NeoScript.Text.Quoted

/-!
# Listings

One line for each instruction of a script: its address, a mark if some instruction leads there, and its text.
-/

namespace NeoScript

namespace Decoded

/-- An address with at least four digits. -/
def addressText (a : Nat) : String := Text.padLeft 4 '0' (toString a)

/-- The address of a handler, or a dash. -/
def handlerText (a : Option Nat) : String := (a.map addressText).getD "-"

/-- The text that a byte string spells, if it spells one without control characters. -/
def plainText? (bs : Bytes) : Option String :=
  match String.fromUTF8? ⟨bs.toArray⟩ with
  | some s => if s.toList.all fun c => !Text.isControl c then some s else none
  | none => none

/-- What follows the mnemonic when the operand is shown as data. -/
def operandText (o : Opcode) (operand : Bytes) : String :=
  if operand.isEmpty then ""
  else
    match (if o.lengthBytes = 0 then none else plainText? operand) with
    | some s => " " ++ Text.quoted s
    | none => " 0x" ++ Bytes.hex operand

/-- The text of an instruction. -/
def text (d : Decoded) : String :=
  d.opcode.mnemonic ++
    match d.target, d.handlers with
    | some target, _ => " -> " ++ addressText target
    | none, some (except, finalizer) =>
      " except=" ++ handlerText except ++ " finally=" ++ handlerText finalizer
    | none, none => operandText d.opcode d.operand

end Decoded

namespace Script

/-- The lines of a listing. An instruction that some instruction leads to is marked. -/
def listing (ds : List Decoded) : String :=
  let marked : Std.HashSet Nat := Std.HashSet.ofList (ds.flatMap Decoded.destinations)
  let lines := ds.map fun d =>
    Decoded.addressText d.address ++ (if marked.contains d.address then " ► " else "   ") ++ d.text ++ "\n"
  String.join lines

end Script

end NeoScript
