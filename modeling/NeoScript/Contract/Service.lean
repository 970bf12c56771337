import NeoScript.Digest.Sha256

/-!
# Services of the host and method tokens

A service of the host is called by the first four bytes of the digest of its name. A method of a contract that
is known when the script is built is called through a `MethodToken`, an entry of a table that goes with the
script.
-/

namespace NeoScript

/-- The services that generated code calls. -/
inductive Service where
  | contractCall
  | notify
  | storageContext
  | storageReadOnlyContext
  | storageGet
  | storagePut
  | iteratorNext
  | iteratorValue
  deriving DecidableEq, Repr

namespace Service

/-- The name under which the host knows a service. -/
def name : Service → String
  | contractCall => "System.Contract.Call"
  | notify => "System.Runtime.Notify"
  | storageContext => "System.Storage.GetContext"
  | storageReadOnlyContext => "System.Storage.GetReadOnlyContext"
  | storageGet => "System.Storage.Get"
  | storagePut => "System.Storage.Put"
  | iteratorNext => "System.Iterator.Next"
  | iteratorValue => "System.Iterator.Value"

/-- Every service once. -/
def all : List Service :=
  [contractCall, notify, storageContext, storageReadOnlyContext, storageGet, storagePut, iteratorNext,
    iteratorValue]

/-- The service of a name. -/
def ofName? (s : String) : Option Service := all.find? fun service => service.name == s

/-- The operand that names a service to the host: the first four bytes of the digest of its name. -/
def operandOf (name : String) : Bytes := (Sha256.digest name.toUTF8.toList).take 4

/-- The operand as a number. -/
def hashOf (name : String) : Nat := Bytes.toNat (operandOf name)

/-- The operand of a service. -/
def operand (s : Service) : Bytes := operandOf s.name

end Service

/-! ### Call flags -/

/-- What a called contract may do, one bit for each permission. -/
structure CallFlags where
  bits : UInt8
  deriving DecidableEq, Repr

namespace CallFlags

def none : CallFlags := ⟨0x00⟩
def readStates : CallFlags := ⟨0x01⟩
def writeStates : CallFlags := ⟨0x02⟩
def allowCall : CallFlags := ⟨0x04⟩
def allowNotify : CallFlags := ⟨0x08⟩
def all : CallFlags := ⟨0x0F⟩

/-- The permissions of either. -/
def union (a b : CallFlags) : CallFlags := ⟨a.bits ||| b.bits⟩

end CallFlags

/-! ### Tokens -/

/-- The hash that names a contract, in the byte order of scripts. -/
abbrev ContractHash := Vector UInt8 20

/-- A method of another contract that the script calls by number. -/
structure MethodToken where
  hash : ContractHash
  method : String
  parameters : UInt16
  returnsValue : Bool
  flags : CallFlags
  deriving DecidableEq, Repr

namespace MethodToken

/-- The hash of the native contract that turns values into bytes and back. -/
def standardLibrary : ContractHash :=
  #v[0xc0, 0xef, 0x39, 0xce, 0xe0, 0xe4, 0xe9, 0x25, 0xc6, 0xc2, 0xa0, 0x6a, 0x79, 0xe1, 0x44, 0x0d, 0xd8,
    0x6f, 0xce, 0xac]

/-- A method of the standard library with one parameter and a result. -/
def standard (method : String) : MethodToken := ⟨standardLibrary, method, 1, true, .all⟩

/-- Turns a value into bytes. -/
def serialize : MethodToken := standard "serialize"

/-- Turns bytes into the value they came from. -/
def deserialize : MethodToken := standard "deserialize"

end MethodToken

end NeoScript
