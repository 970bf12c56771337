import NeoScript.Snippet.Basic

/-!
# Division that rounds down

The machine's `DIV` and `MOD` round towards zero. These snippets correct the result when the operands differ in
sign, so that the quotient is rounded down and the remainder has the sign of the divisor.
-/

namespace NeoScript.Snippet

/-- `[a, b] → [a // b]`: the truncated quotient is decremented if remainder and divisor have opposite signs. -/
def floorDiv : Snippet :=
  ops [.dupBelow, .dupBelow, .div, .reverse3, .dupBelow, .mod, .mul, .push 0, .lt] ++ skip .ifFalse (op .dec)

/-- `[a, b] → [a % b]`: the divisor is added if the truncated remainder has the opposite sign. -/
def floorMod : Snippet :=
  ops [.swap, .dupBelow, .mod, .dupBelow, .dupBelow, .mul, .push 0, .lt] ++
    skip .ifFalse (ops [.dupBelow, .add]) ++ op .nip

end NeoScript.Snippet
