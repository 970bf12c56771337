/-!
# Bytes

Byte strings as lists, the little-endian numbers they hold, and their hexadecimal text. A signed number
is held in two's complement; `signedWidth v` is the least number of bytes that holds `v`.
-/

namespace NeoScript

-- Powers are those of the numbers, whatever other instances are in scope.
attribute [local instance (high)] instPowNat

/-- A byte string. -/
abbrev Bytes := List UInt8

namespace Bytes

/-! ### Unsigned numbers -/

/-- The lowest `width` bytes of `n`, least significant first. -/
def ofNat : (width n : Nat) → Bytes
  | 0, _ => []
  | width + 1, n => n.toUInt8 :: ofNat width (n / 256)

/-- The number whose bytes are `bs`, least significant first. -/
def toNat : Bytes → Nat
  | [] => 0
  | b :: bs => b.toNat + 256 * toNat bs

@[simp] theorem length_ofNat (width n : Nat) : (ofNat width n).length = width := by
  induction width generalizing n with
  | zero => rfl
  | succ width ih => simp [ofNat, ih]

/-! ### Signed numbers -/

/-- Whether `v` lies in the range of two's complement numbers of `width` bytes. -/
def fitsSigned (width : Nat) (v : Int) : Bool :=
  decide (-(2 ^ (8 * width - 1) : Int) ≤ v ∧ v < (2 ^ (8 * width - 1) : Int))

/-- The two's complement form of `v` in `width` bytes. -/
def ofInt (width : Nat) (v : Int) : Bytes := ofNat width (v % (256 ^ width : Int)).toNat

/-- The number whose two's complement form is `bs`. -/
def toInt (bs : Bytes) : Int :=
  if 2 * toNat bs < 256 ^ bs.length then toNat bs else (toNat bs : Int) - (256 ^ bs.length : Int)

/-- The number of binary digits of `n`. -/
def bitLength (n : Nat) : Nat := if n = 0 then 0 else n.log2 + 1

/-- The least number of bytes whose two's complement range contains `v`. -/
def signedWidth (v : Int) : Nat :=
  bitLength (if 0 ≤ v then v.toNat else (-(v + 1)).toNat) / 8 + 1

/-! ### Hexadecimal text -/

/-- The lower-case hexadecimal digit of value `n`, for `n < 16`. -/
def hexDigit (n : Nat) : Char := Nat.digitChar n

/-- Two lower-case digits for each byte. -/
def hex (bs : Bytes) : String :=
  String.ofList (bs.flatMap fun b => [hexDigit (b.toNat / 16), hexDigit (b.toNat % 16)])

/-- Two upper-case digits for one byte. -/
def hexUpper (b : UInt8) : String := (hex [b]).map Char.toUpper

end Bytes

end NeoScript
