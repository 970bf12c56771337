import NeoScript.Generator.Branch
import NeoScript.Generator.Invocation
import NeoScript.Generator.Loop
import NeoScript.Generator.Method
import NeoScript.Generator.Operation
import NeoScript.Generator.Protected

/-!
# Commands

A method body is a list of commands, one for each step of the language: an expression in postfix order, the
opening or the closing of a statement. `Command.run` emits the code of one command.
-/

namespace NeoScript

/-- A step of a method body. -/
inductive Command where
  | literal (value : Literal)
  | integer (value : Int)
  | cast (type : ValueType)
  | load (name : String)
  | store (name : String)
  /-- Records a type that a variable is known to have in the innermost region. -/
  | narrow (name : String) (type : ValueType)
  | unary (operator : UnaryOp)
  | binary (operator : BinaryOp)
  | isInstance (type : ValueType)
  | getItem
  | setItem
  | deleteItem
  | slice
  | sliceBeginning
  | sliceEnding
  | copy
  | stride
  | sliceStride
  | beginIf
  | beginElse
  | endIf
  | beginWhile
  | beginWhileBody
  | endWhile (hasElse : Bool)
  | beginFor
  | endFor (hasElse : Bool)
  | endLoopElse
  | breakLoop
  | continueLoop
  | beginTry
  /-- Opens the handler; the exception goes into the variable, or is dropped. -/
  | beginHandler (name : Option String)
  | endTry (hasFinalizer : Bool)
  | endFinalizer
  | returnFrom (hasValue : Bool)
  | raise
  | assert (hasMessage : Bool)
  | call (name : String)
  | builtin (function : Builtin)
  | newObject (className : String)
  | loadField (field : String)
  | storeField (field : String)
  | announce (event : String)
  | callContract (contract method : String)

namespace Command

/-- Emits the code of a command. -/
def run : Command → Emission Unit
  | literal value => Generator.literal value
  | integer value => Generator.integer value
  | cast type => modify fun g => g.cast type
  | load name => Generator.load name
  | store name => Generator.store name
  | narrow name type => modify fun g => g.narrow name type
  | unary operator => Generator.unary operator
  | binary operator => Generator.binary operator
  | isInstance type => Generator.isInstance type
  | getItem => Generator.getItem
  | setItem => Generator.setItem
  | deleteItem => Generator.deleteItem
  | slice => Generator.slice
  | sliceBeginning => Generator.sliceBeginning
  | sliceEnding => Generator.sliceEnding
  | copy => Generator.copy
  | stride => Generator.stride
  | sliceStride => Generator.sliceStride
  | beginIf => modify Generator.beginIf
  | beginElse => Generator.beginElse
  | endIf => Generator.endIf
  | beginWhile => modify Generator.beginWhile
  | beginWhileBody => Generator.beginWhileBody
  | endWhile hasElse => Generator.endWhile hasElse
  | beginFor => Generator.beginFor
  | endFor hasElse => Generator.endFor hasElse
  | endLoopElse => Generator.endLoopElse
  | breakLoop => Generator.breakLoop
  | continueLoop => Generator.continueLoop
  | beginTry => modify Generator.beginTry
  | beginHandler name => Generator.beginHandler name
  | endTry hasFinalizer => Generator.endTry hasFinalizer
  | endFinalizer => Generator.endFinalizer
  | returnFrom hasValue => Generator.returnFrom hasValue
  | raise => modify Generator.raise
  | assert hasMessage => modify fun g => g.assert hasMessage
  | call name => Generator.callMethod name
  | builtin function => Generator.callBuiltin function
  | newObject className => Generator.newObject className
  | loadField field => Generator.loadField field
  | storeField field => Generator.storeField field
  | announce event => Generator.announce event
  | callContract contract method => Generator.callContract contract method

/-- Emits the code of commands until one is refused. -/
def runAll : List Command → Emission Unit
  | [] => pure ()
  | command :: commands => do
    command.run
    runAll commands

end Command

end NeoScript
