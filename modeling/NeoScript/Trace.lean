import NeoScript.Opcode.Encoding
import NeoScript.Text.Quoted

/-!
# Traces

A `Trace` collects what happens while code is generated, up to a limit, and can be shown one line for each
event. It is only ever written: nothing that is generated depends on it.
-/

namespace NeoScript

/-- Something that happened while code was generated. -/
inductive TraceEvent where
  /-- An instruction was emitted at an address, when the stack had that depth. -/
  | emit (address : Nat) (opcode : Opcode) (depth : Nat)
  /-- A control transfer got its destination; `none` is the end of the script. -/
  | patch (address : Nat) (opcode : Opcode) (target : Option Nat)
  /-- A block was moved to the end. -/
  | relocate (first last newStart : Nat)
  /-- Instructions were removed. -/
  | remove (start stop count : Nat)
  /-- Code was taken back to an address. -/
  | rollback (address : Nat)
  | methodBegin (name : String) (address : Nat)
  | methodEnd (name : String) (stop : Nat)
  /-- A control transfer got four-byte offsets. -/
  | widen (address : Nat) (opcode : Opcode)
  /-- Unreachable code was removed. -/
  | deadCode (removed bytes : Nat)
  deriving DecidableEq, Repr

/-- The line that shows an event. -/
def TraceEvent.text : TraceEvent → String
  | emit address opcode depth =>
    "[" ++ Text.padLeft 5 ' ' (toString address) ++ "] " ++ Text.padRight 16 opcode.mnemonic ++
      "  stack=" ++ toString depth
  | patch address opcode target =>
    "  ~~~ PATCH " ++ opcode.mnemonic ++ " @" ++ toString address ++ " -> " ++
      (match target with
      | some a => toString a
      | none => "<end>")
  | relocate first last newStart =>
    "  ... RELOCATE " ++ toString first ++ "..=" ++ toString last ++ " to " ++ toString newStart
  | remove start stop count =>
    "  --- REMOVE " ++ toString start ++ "..=" ++ toString stop ++ " (" ++ toString count ++ " instructions)"
  | rollback address => "  <-- ROLLBACK to " ++ toString address
  | methodBegin name address => "  >>> METHOD " ++ Text.padRight 12 name ++ " @" ++ toString address
  | methodEnd name stop => "  <<< METHOD " ++ Text.padRight 12 name ++ " end=" ++ toString stop
  | widen address opcode => "  +++ WIDEN @" ++ toString address ++ " to " ++ opcode.mnemonic
  | deadCode removed bytes =>
    "  xxx DEAD CODE " ++ toString removed ++ " instructions, " ++ toString bytes ++ " bytes"

/-- The events so far. -/
structure Trace where
  /-- Whether events are kept at all. -/
  active : Bool := false
  /-- How many events are kept. -/
  limit : Option Nat := none
  events : Array TraceEvent := #[]
  /-- Whether an event came after the limit. -/
  exceeded : Bool := false
  deriving Repr

namespace Trace

/-- Adds an event, unless the limit is reached. -/
def add (t : Trace) (e : TraceEvent) : Trace :=
  if !t.active then t
  else if t.limit.all fun limit => decide (t.events.size < limit) then { t with events := t.events.push e }
  else { t with exceeded := true }

/-- One line for each event, and a last one if events were left out. -/
def text (t : Trace) : String :=
  let lines := t.events.toList.map fun e => e.text ++ "\n"
  let rest :=
    match t.limit, t.exceeded with
    | some limit, true => ["--- trace limit reached (" ++ toString limit ++ " events) ---\n"]
    | _, _ => []
  String.join (lines ++ rest)

end Trace

end NeoScript
