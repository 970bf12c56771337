import NeoScript.Proofs.Script.Encoding
import NeoScript.PushInteger

/-!
# The ways to push an integer

`Pushing v is` says that the instructions push `v`: one opcode for a small integer, one followed by its negation, or a
fixed-width operand in two's complement. An integer that fits into 32 bytes is pushed in the shortest of these ways.
-/

namespace NeoScript

open Bytes Opcode Option List

/-! ### The width of an integer -/

namespace Bytes

lemma bitLength_le {n k : Nat} : bitLength n ≤ k ↔ n < 2 ^ k := by
  unfold bitLength
  split_ifs with hn
  · simp [hn]
  · rw [Nat.succ_le_iff, Nat.log2_lt hn]

/-- An integer fits into as many bytes as its width says, and into no fewer. -/
lemma signedWidth_le {v : Int} {width : Nat} (hw : 0 < width) : signedWidth v ≤ width ↔ fitsSigned width v = true := by
  have hbits (n : Nat) : bitLength n / 8 + 1 ≤ width ↔ n < 2 ^ (8 * width - 1) := by
    rw [← bitLength_le]
    omega
  have hcast : ((2 ^ (8 * width - 1) : Nat) : Int) = 2 ^ (8 * width - 1) := by push_cast; rfl
  rw [signedWidth, hbits, fitsSigned, decide_eq_true_eq, ← hcast]
  split_ifs <;> omega

lemma toNat_lt (bs : Bytes) : toNat bs < 256 ^ bs.length := by
  induction bs with
  | nil => exact Nat.one_pos
  | cons b bs ih =>
    have hb := b.toNat_lt
    rw [toNat, length_cons, Nat.pow_succ]
    omega

/-- What some bytes hold fits into them. -/
lemma signedWidth_toInt {bs : Bytes} (hb : 0 < bs.length) : signedWidth (toInt bs) ≤ bs.length := by
  have hlt := toNat_lt bs
  have hpow : 256 ^ bs.length = 2 * 2 ^ (8 * bs.length - 1) := by
    rw [show 256 = 2 ^ 8 by rfl, ← pow_mul, ← pow_succ']
    congr 1
    omega
  rw [signedWidth_le hb, fitsSigned, decide_eq_true_eq, toInt]
  zify at hlt hpow ⊢
  split_ifs <;> omega

end Bytes

/-- The integers that fit into 32 bytes. -/
def Literal.InRange (v : Int) : Prop := -2 ^ 255 ≤ v ∧ v < 2 ^ 255

instance (v : Int) : Decidable (Literal.InRange v) := inferInstanceAs (Decidable (_ ∧ _))

lemma inRange_iff_signedWidth {v : Int} : Literal.InRange v ↔ signedWidth v ≤ 32 := by
  rw [signedWidth_le (by decide), fitsSigned, decide_eq_true_eq]
  rfl

/-! ### Pushing -/

/-- The instructions push the integer. -/
inductive Pushing : Int → List Instruction → Prop
  | minusOne : Pushing (-1) [{ opcode := .pushMinusOne }]
  | small (k : Fin 17) : Pushing k.val [{ opcode := .push k }]
  | negated (k : Fin 17) : Pushing (-k.val) [{ opcode := .push k }, { opcode := .negate }]
  | wide {scale : Fin 6} {bs : Bytes} : bs.length = 2 ^ scale.val → Pushing (toInt bs) [⟨.pushInt scale, bs, .unresolved⟩]

/-- The number of bytes of some instructions. -/
def encodedLength (is : List Instruction) : Nat := (is.map Instruction.size).sum

variable {v : Int} {is js : List Instruction}

lemma pushing_of_pushSmall? {o : Opcode} (h : pushSmall? v = some o) :
    (Pushing v [{ opcode := o }] ∧ Pushing (-v) [{ opcode := o }, { opcode := .negate }] ∨ v = -1 ∧ o = .pushMinusOne) ∧
      -1 ≤ v ∧ v < 17 ∧ ({ opcode := o } : Instruction).size = 1 := by
  unfold pushSmall? at h
  split_ifs at h with hone hv
  · cases h
    exact ⟨.inr ⟨hone, rfl⟩, by omega, by omega, rfl⟩
  · cases h
    have hsmall := Pushing.small ⟨v.toNat, by omega⟩
    have hnegated := Pushing.negated ⟨v.toNat, by omega⟩
    rw [Int.toNat_of_nonneg hv.1] at hsmall hnegated
    exact ⟨.inl ⟨hsmall, hnegated⟩, by omega, by omega, rfl⟩

lemma pushSmall?_eq_none : pushSmall? v = none ↔ v < -1 ∨ 17 ≤ v := by
  unfold pushSmall?
  split_ifs <;> simp <;> omega

lemma intScale?_eq_none : intScale? v = none ↔ ¬ Literal.InRange v := by
  rw [inRange_iff_signedWidth, intScale?, find?_eq_none]
  constructor
  · intro h
    simpa using h 5 (mem_finRange _)
  · intro h scale _
    have hscale : 2 ^ scale.val ≤ 2 ^ 5 := Nat.pow_le_pow_right (by decide) (Nat.le_of_lt_succ scale.isLt)
    simp only [decide_eq_true_eq]
    omega

/-- The scale is the least one that is wide enough. -/
lemma intScale?_eq_some {scale : Fin 6} (h : intScale? v = some scale) :
    signedWidth v ≤ 2 ^ scale.val ∧ ∀ width : Fin 6, signedWidth v ≤ 2 ^ width.val → scale ≤ width := by
  obtain ⟨hfits, i, hi, heq, hbefore⟩ := find?_eq_some_iff_getElem.1 h
  refine ⟨of_decide_eq_true hfits, fun width hw => ?_⟩
  by_contra hlt
  have hscale : scale.val = i := by simp [← heq]
  simpa [hw] using hbefore width.val (by omega)

/-- What cases there are when an integer is pushed. -/
lemma pushInteger?_cases {P : Option (List Instruction) → Prop}
    (hsmall : ∀ o, pushSmall? v = some o → P (some [{ opcode := o }]))
    (hnegated : ∀ o, v < -1 → pushSmall? (-v) = some o → P (some [{ opcode := o }, { opcode := .negate }]))
    (hwide : ∀ scale, v < -16 ∨ 17 ≤ v → intScale? v = some scale →
      P (some [⟨.pushInt scale, ofInt (2 ^ scale.val) v, .unresolved⟩]))
    (hnone : v < -16 ∨ 17 ≤ v → intScale? v = none → P none) : P (pushInteger? v) := by
  unfold pushInteger?
  split
  · next o ho => exact hsmall o ho
  · next hv =>
    rw [pushSmall?_eq_none] at hv
    split
    · next o ho =>
      obtain ⟨hneg, ho⟩ := ite_none_right_eq_some.1 ho
      exact hnegated o (by omega) ho
    · next ho =>
      have hfar : v < -16 ∨ 17 ≤ v := by
        split_ifs at ho
        · rw [pushSmall?_eq_none] at ho
          omega
        · omega
      cases hscale : intScale? v with
      | none => exact hnone hfar hscale
      | some scale => exact hwide scale hfar hscale

lemma pushing_pushInteger? (h : pushInteger? v = some is) : Pushing v is := by
  revert h
  refine pushInteger?_cases (P := fun o => o = some is → Pushing v is) (fun o ho h => ?_) (fun o hv ho h => ?_)
    (fun scale _ hscale h => ?_) nofun
  · obtain rfl := some.inj h
    obtain ⟨⟨hp, -⟩ | ⟨rfl, rfl⟩, -⟩ := pushing_of_pushSmall? ho
    · exact hp
    · exact .minusOne
  · obtain rfl := some.inj h
    obtain ⟨⟨-, hp⟩ | ⟨hone, -⟩, -⟩ := pushing_of_pushSmall? ho
    · rwa [neg_neg] at hp
    · omega
  · obtain rfl := some.inj h
    have hpos : 0 < 2 ^ scale.val := Nat.two_pow_pos _
    have hwide := @Pushing.wide scale _ (length_ofInt (2 ^ scale.val) v)
    rwa [toInt_ofInt hpos ((signedWidth_le hpos).1 (intScale?_eq_some hscale).1)] at hwide

/-- There are instructions that push an integer just if it fits into 32 bytes. -/
lemma pushInteger?_eq_none : pushInteger? v = none ↔ ¬ Literal.InRange v := by
  have hnear : -16 ≤ v ∧ v < 17 → Literal.InRange v := by
    unfold Literal.InRange
    omega
  refine pushInteger?_cases (P := fun o => o = none ↔ _) (fun o ho => ?_) (fun o hv ho => ?_) (fun scale _ hscale => ?_)
    fun _ hscale => iff_of_true rfl (intScale?_eq_none.1 hscale)
  · have := (pushing_of_pushSmall? ho).2
    exact iff_of_false nofun (not_not.2 (hnear (by omega)))
  · have := (pushing_of_pushSmall? ho).2
    exact iff_of_false nofun (not_not.2 (hnear (by omega)))
  · refine iff_of_false nofun (not_not.2 ?_)
    by_contra hv
    rw [intScale?_eq_none.2 hv] at hscale
    cases hscale

lemma exists_pushInteger? (hv : Literal.InRange v) : ∃ is, pushInteger? v = some is :=
  ne_none_iff_exists'.1 fun h => pushInteger?_eq_none.1 h hv

/-- What it takes at least to push an integer. -/
lemma Pushing.bound (h : Pushing v js) : 1 ≤ encodedLength js ∧ (v < -1 → 2 ≤ encodedLength js) ∧
      (v < -16 ∨ 17 ≤ v → ∃ scale : Fin 6, encodedLength js = 1 + 2 ^ scale.val ∧ signedWidth v ≤ 2 ^ scale.val) := by
  cases h with
  | minusOne => exact ⟨le_refl _, by omega, by omega⟩
  | small k => exact ⟨le_refl _, by omega, by omega⟩
  | negated k => exact ⟨Nat.le_succ 1, fun _ => le_refl _, by omega⟩
  | @wide scale bs hb =>
    have hpos : 0 < 2 ^ scale.val := Nat.two_pow_pos _
    have hlength : encodedLength [⟨.pushInt scale, bs, .unresolved⟩] = 1 + 2 ^ scale.val := rfl
    rw [hlength]
    exact ⟨by omega, by omega, fun _ => ⟨scale, rfl, hb ▸ signedWidth_toInt (by omega)⟩⟩

/-- No other way to push the integer is shorter. -/
lemma pushInteger?_shortest (h : pushInteger? v = some is) (hj : Pushing v js) : encodedLength is ≤ encodedLength js := by
  obtain ⟨hone, htwo, hfar⟩ := hj.bound
  revert h
  refine pushInteger?_cases (P := fun o => o = some is → _) (fun o ho h => ?_) (fun o hv ho h => ?_)
    (fun scale hv hscale h => ?_) nofun
  · obtain rfl := some.inj h
    simpa [encodedLength, (pushing_of_pushSmall? ho).2.2.2] using hone
  · obtain rfl := some.inj h
    have hnegate : ({ opcode := .negate } : Instruction).size = 1 := rfl
    simpa [encodedLength, (pushing_of_pushSmall? ho).2.2.2, hnegate] using htwo hv
  · obtain rfl := some.inj h
    obtain ⟨width, hlength, hw⟩ := hfar hv
    have hle : 2 ^ scale.val ≤ 2 ^ width.val := Nat.pow_le_pow_right Nat.two_pos ((intScale?_eq_some hscale).2 width hw)
    rw [hlength]
    exact Nat.add_le_add_left hle 1

/-- An integer that is refused needs as many bytes as the refusal says. -/
lemma signedWidth_isLeast (hv : v ≠ 0) : IsLeast {k | ∃ bs : Bytes, bs.length = k ∧ toInt bs = v} (signedWidth v) := by
  have hpos : 0 < signedWidth v := Nat.succ_pos _
  refine ⟨⟨ofInt (signedWidth v) v, length_ofInt _ _, toInt_ofInt hpos ((signedWidth_le hpos).1 (le_refl _))⟩, ?_⟩
  rintro k ⟨bs, rfl, rfl⟩
  refine signedWidth_toInt (length_pos_iff.2 fun hnil => hv ?_)
  rw [hnil]
  rfl

end NeoScript
