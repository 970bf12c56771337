import NeoScript.Proofs.CompiledUnit.PrefixCode
import NeoScript.Proofs.Machine.Division
import NeoScript.Proofs.Machine.Representation
import NeoScript.Proofs.Script.Grammar
import NeoScript.Proofs.Session.Accesses
import NeoScript.Proofs.Session.Retraction
import NeoScript.Proofs.Session.Tiling
import NeoScript.Proofs.Session.Widening
import NeoScript.Proofs.ShadowStack
import NeoScript.Proofs.Statement.Alternatives
import NeoScript.Proofs.Statement.RegionDiscipline
import NeoScript.Proofs.ValueType
import NeoScript.Proofs.Machine.Integers
import NeoScript.Proofs.Machine.Literals
