import Mathlib.Tactic.Positivity
import Mathlib.Tactic.Zify
import NeoScript.Opcode.Encoding
import NeoScript.Bytes

/-!
# Numbers and opcodes as bytes

A number is read back from its bytes if it fits them, and an opcode from its byte.
-/

namespace NeoScript

/-! ### Numbers as bytes -/

namespace Bytes

lemma toNat_ofNat {width n : Nat} (h : n < 256 ^ width) : toNat (ofNat width n) = n := by
  induction width generalizing n with
  | zero => simp_all [ofNat, toNat]
  | succ width ih =>
    have hdiv : n / 256 < 256 ^ width := by
      rw [Nat.div_lt_iff_lt_mul (by decide)]
      rwa [Nat.pow_succ] at h
    rw [ofNat, toNat, ih hdiv]
    simp only [Nat.toUInt8, UInt8.toNat_ofNat']
    omega

@[simp] lemma length_ofInt (width : Nat) (v : Int) : (ofInt width v).length = width := length_ofNat _ _

lemma toInt_ofInt {width : Nat} {v : Int} (hw : 0 < width) (h : fitsSigned width v = true) :
    toInt (ofInt width v) = v := by
  obtain ⟨w, rfl⟩ : ∃ w, width = w + 1 := ⟨width - 1, by omega⟩
  have hpow : (256 : Int) ^ (w + 1) = 2 * 2 ^ (8 * (w + 1) - 1) := by
    rw [show (256 : Int) = 2 ^ 8 by rfl, ← pow_mul, ← pow_succ']
    congr 1
  simp only [fitsSigned, decide_eq_true_eq] at h
  have hpos : (0 : Int) < 256 ^ (w + 1) := by positivity
  have hnonneg := Int.emod_nonneg v hpos.ne'
  have hlt := Int.emod_lt_of_pos v hpos
  have hnat : toNat (ofInt (w + 1) v) = (v % 256 ^ (w + 1)).toNat := by
    refine toNat_ofNat ?_
    zify
    rw [Int.toNat_of_nonneg hnonneg]
    exact_mod_cast hlt
  rw [toInt, length_ofInt, hnat]
  zify
  rw [Int.toNat_of_nonneg hnonneg]
  by_cases hv : 0 ≤ v
  · have hmod : v % 256 ^ (w + 1) = v := Int.emod_eq_of_lt hv (by omega)
    rw [hmod, if_pos (by omega)]
  · have hmod : v % 256 ^ (w + 1) = v + 256 ^ (w + 1) := by
      rw [← Int.add_emod_right, Int.emod_eq_of_lt (by omega) (by omega)]
    rw [hmod, if_neg (by omega)]
    omega

end Bytes

/-! ### Opcodes -/

namespace Opcode

/-- The byte of an opcode is that of no other. -/
lemma ofByte?_byte (o : Opcode) : ofByte? o.byte = some o := by
  cases o with
  | pushInt scale | pushData scale => revert scale; decide +kernel
  | push value | pushBool value => revert value; decide +kernel
  | jump test far => cases test <;> cases far <;> decide +kernel
  | call far | tryEnter far | tryLeave far => revert far; decide +kernel
  | load kind slot | store kind slot =>
    cases kind <;> cases slot with
    | none => decide +kernel
    | some slot => revert slot; decide +kernel
  | _ => decide +kernel

end Opcode

end NeoScript
