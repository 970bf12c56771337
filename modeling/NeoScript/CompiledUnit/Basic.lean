import NeoScript.Contract.Service
import NeoScript.Script.Listing
import NeoScript.Table

/-!
# Compiled units

What a compilation produces: the script, and what is needed beside it to publish, run and debug it.
-/

namespace NeoScript

/-- The first and the last byte of a method. -/
structure MethodRange where
  start : UInt32
  stop : UInt32
  deriving DecidableEq, Repr

/-- A method that was left out because it could not be compiled. -/
structure MethodFailure where
  method : String
  message : String
  deriving DecidableEq, Repr

/-- A finished script and everything that belongs to it. -/
structure CompiledUnit where
  script : Bytes
  /-- The methods of other contracts that the script calls by number. -/
  tokens : List MethodToken
  /-- Where each method is, in the order of addresses. -/
  methods : Table String MethodRange
  /-- The number of static fields. -/
  staticFields : UInt8
  failures : List MethodFailure

namespace CompiledUnit

/-- The address at which a method starts. -/
def methodAddress? (u : CompiledUnit) (method : String) : Option UInt32 :=
  (u.methods.get? method).map MethodRange.start

/-- The instructions of the script. -/
def instructions (u : CompiledUnit) : Except DecodeError (List Decoded) := Script.decode u.script

/-- The listing of the script. -/
def listing (u : CompiledUnit) : Except DecodeError String := u.instructions.map Script.listing

end CompiledUnit

end NeoScript
