import Mathlib.Data.Rat.Floor
import NeoScript.Proofs.Machine.Indexing

/-!
# Division that rounds down

The machine rounds a quotient towards zero. The code of a division corrects the quotient, or the remainder, if the
remainder and the divisor have opposite signs, so that the quotient is rounded down. If the types say that neither
operand is negative there is nothing to correct, and the code is one instruction.
-/

namespace NeoScript

open Generator Machine Action ValueType

/-! ### Quotients -/

/-- The quotient that leaves a remainder with the sign of the divisor is the one that is rounded down. -/
lemma floor_div_eq {a b q : ℤ} (h : (0 ≤ a - b * q ∧ a - b * q < b) ∨ (b < a - b * q ∧ a - b * q ≤ 0)) :
    ⌊(a / b : ℚ)⌋ = q := by
  rw [Int.floor_eq_iff]
  rcases h with ⟨hlow, hhigh⟩ | ⟨hlow, hhigh⟩
  · have hb : (0 : ℚ) < b := by exact_mod_cast hlow.trans_lt hhigh
    rw [le_div_iff₀ hb, div_lt_iff₀ hb]
    constructor
    · exact_mod_cast (by linarith : q * b ≤ a)
    · exact_mod_cast (by linarith : a < (q + 1) * b)
  · have hb : (b : ℚ) < 0 := by exact_mod_cast hlow.trans_le hhigh
    rw [le_div_iff_of_neg hb, div_lt_iff_of_neg hb]
    constructor
    · exact_mod_cast (by linarith : a ≤ q * b)
    · exact_mod_cast (by linarith : (q + 1) * b < a)

lemma natAbs_tmod_lt (a : ℤ) {b : ℤ} (hb : b ≠ 0) : (a.tmod b).natAbs < b.natAbs := by
  rw [Int.natAbs_tmod]
  exact Nat.mod_lt _ (Int.natAbs_pos.2 hb)

/-- **The corrected quotient is rounded down.** -/
lemma floor_div_eq_tdiv (a : ℤ) {b : ℤ} (hb : b ≠ 0) :
    ⌊(a / b : ℚ)⌋ = if b * a.tmod b < 0 then a.tdiv b - 1 else a.tdiv b := by
  have hsum : b * a.tdiv b + a.tmod b = a := Int.mul_tdiv_add_tmod a b
  have hsmall := natAbs_tmod_lt a hb
  refine floor_div_eq ?_
  split_ifs with hneg
  · have hrest : a - b * (a.tdiv b - 1) = a.tmod b + b := by rw [Int.mul_sub]; omega
    rw [hrest]
    rcases mul_neg_iff.1 hneg with ⟨_, _⟩ | ⟨_, _⟩ <;> omega
  · have hrest : a - b * a.tdiv b = a.tmod b := by omega
    rw [hrest]
    have hsign : (0 ≤ b ∧ 0 ≤ a.tmod b) ∨ (b ≤ 0 ∧ a.tmod b ≤ 0) := mul_nonneg_iff.1 (not_lt.1 hneg)
    omega

/-- The corrected remainder is what the quotient that is rounded down leaves. -/
lemma sub_mul_floor_div (a : ℤ) {b : ℤ} (hb : b ≠ 0) :
    a - b * ⌊(a / b : ℚ)⌋ = if b * a.tmod b < 0 then a.tmod b + b else a.tmod b := by
  have hsum : b * a.tdiv b + a.tmod b = a := Int.mul_tdiv_add_tmod a b
  rw [floor_div_eq_tdiv a hb]
  split_ifs
  · rw [Int.mul_sub]
    omega
  · omega

/-! ### The code of divisions -/

/-- Whether the types say that neither operand is negative. -/
def ValueType.nonNegative (left right : ValueType) : Bool := left == .nonNegInt && right == .nonNegInt

/-- The type of a quotient or a remainder. -/
def ValueType.quotient (left right : ValueType) : ValueType := if nonNegative left right then .nonNegInt else .int

namespace Snippet

/-- `[a, b] → [a // b]`. -/
def divideBy (left right : ValueType) : Snippet := if ValueType.nonNegative left right then op .div else floorDiv

/-- `[a, b] → [a % b]`. -/
def remainderBy (left right : ValueType) : Snippet := if ValueType.nonNegative left right then op .mod else floorMod

variable {a b : ℤ} {v w : Value} {S : List Value} {h : Heap} {left right : ValueType}

variable (hv : v.int? = some a) (hw : w.int? = some b) (hb : b ≠ 0)
include hv hw hb

lemma yields_floorDiv : Yields floorDiv ⟨w :: v :: S, h⟩ (some ⟨.int ⌊(a / b : ℚ)⌋ :: S, h⟩) := by
  have htest : Yields (ops [.dupBelow, .dupBelow, .div, .reverse3, .dupBelow, .mod, .mul, .push 0, .lt]) ⟨w :: v :: S, h⟩
      (some ⟨.bool (decide (b * a.tmod b < 0)) :: .int (a.tdiv b) :: S, h⟩) := by
    refine yields_ops ?_
    simp [performAll, perform, action, Action.copy, run_reorder, Action.division, Action.arithmetic, Action.comparison,
      Action.binary, run_popInt_of hv, run_popInt_of hw, hb]
  rw [floor_div_eq_tdiv a hb]
  refine htest.append ?_
  by_cases hneg : b * a.tmod b < 0
  · rw [decide_eq_true hneg, if_pos hneg]
    exact .passed rfl (.op rfl)
  · rw [decide_eq_false hneg, if_neg hneg]
    exact .skipped rfl

lemma yields_floorMod : Yields floorMod ⟨w :: v :: S, h⟩ (some ⟨.int (a - b * ⌊(a / b : ℚ)⌋) :: S, h⟩) := by
  have htest : Yields (ops [.swap, .dupBelow, .mod, .dupBelow, .dupBelow, .mul, .push 0, .lt]) ⟨w :: v :: S, h⟩
      (some ⟨.bool (decide (b * a.tmod b < 0)) :: .int (a.tmod b) :: w :: S, h⟩) := by
    refine yields_ops ?_
    simp [performAll, perform, action, Action.copy, run_reorder, Action.division, Action.arithmetic, Action.comparison,
      Action.binary, run_popInt_of hv, run_popInt_of hw, hb]
  have hcorrect : Yields (skip .ifFalse (ops [.dupBelow, .add]))
      ⟨.bool (decide (b * a.tmod b < 0)) :: .int (a.tmod b) :: w :: S, h⟩
      (some ⟨.int (a - b * ⌊(a / b : ℚ)⌋) :: w :: S, h⟩) := by
    rw [sub_mul_floor_div a hb]
    by_cases hneg : b * a.tmod b < 0
    · rw [decide_eq_true hneg, if_pos hneg]
      refine .passed rfl (yields_ops ?_)
      simp [performAll, perform, action, Action.copy, Action.arithmetic, Action.binary, run_popInt_of hw]
    · rw [decide_eq_false hneg, if_neg hneg]
      exact .skipped rfl
  exact .append (.append htest hcorrect) (.op rfl)

lemma yields_divideBy (hsign : nonNegative left right = true → 0 ≤ a ∧ 0 ≤ b) :
    Yields (divideBy left right) ⟨w :: v :: S, h⟩ (some ⟨.int ⌊(a / b : ℚ)⌋ :: S, h⟩) := by
  unfold divideBy
  split_ifs with hn
  · have hfloor := floor_div_eq_tdiv a hb
    rw [if_neg (not_lt.2 (mul_nonneg (hsign hn).2 (Int.tmod_nonneg b (hsign hn).1)))] at hfloor
    refine .op ?_
    simp [hfloor, perform, action, Action.division, Action.binary, run_popInt_of hv, run_popInt_of hw, hb]
  · exact yields_floorDiv hv hw hb

lemma yields_remainderBy (hsign : nonNegative left right = true → 0 ≤ a ∧ 0 ≤ b) :
    Yields (remainderBy left right) ⟨w :: v :: S, h⟩ (some ⟨.int (a - b * ⌊(a / b : ℚ)⌋) :: S, h⟩) := by
  unfold remainderBy
  split_ifs with hn
  · have hrest := sub_mul_floor_div a hb
    rw [if_neg (not_lt.2 (mul_nonneg (hsign hn).2 (Int.tmod_nonneg b (hsign hn).1)))] at hrest
    refine .op ?_
    simp [hrest, perform, action, Action.division, Action.binary, run_popInt_of hv, run_popInt_of hw, hb]
  · exact yields_floorMod hv hw hb

end Snippet

/-! ### The operators -/

namespace Generator

variable {g : Generator}

/-- A division emits its short form or its long form, and leaves the type of its result. -/
lemma spells_division {o : Opcode} {s : Snippet} (hl : Legible g) (ho : o.role = .plain) (hs : s.proper = true)
    (left right : ValueType) :
    let g' := if nonNegative left right then g.binaryOp o .nonNegInt else (g.emitSnippet s).settle 2 .int
    Spells (if nonNegative left right then .op o else s) g g' ∧
      g'.stack.items = .quotient left right :: g.stack.items.drop 2 := by
  unfold ValueType.quotient
  dsimp only
  split_ifs
  · exact ⟨.op hl ho 2 _, items_op g _ _ _⟩
  · refine ⟨(Spells.emitSnippet hl hs).settle 2 .int, ?_⟩
    rw [settle, items_pushType, items_popTypes, items_emitSnippet]

lemma prints_divide (hl : Legible g) (hleft : numeric (g.stack.peek 1) = true) (hright : numeric (g.stack.peek 0) = true) :
    ∃ g', Prints (binary .floorDiv) (.divideBy (g.stack.peek 1) (g.stack.peek 0)) g g' ∧
      g'.stack.items = .quotient (g.stack.peek 1) (g.stack.peek 0) :: g.stack.items.drop 2 := by
  obtain ⟨hs, hitems⟩ := spells_division (o := .div) (s := .floorDiv) hl rfl rfl (g.stack.peek 1) (g.stack.peek 0)
  refine ⟨_, .get ⟨?_, hs⟩, hitems⟩
  simp only [binary?, hleft, hright, Bool.and_self, if_true, arithmetic?]
  rfl

lemma prints_remainder (hl : Legible g) (hleft : numeric (g.stack.peek 1) = true)
    (hright : numeric (g.stack.peek 0) = true) :
    ∃ g', Prints (binary .mod) (.remainderBy (g.stack.peek 1) (g.stack.peek 0)) g g' ∧
      g'.stack.items = .quotient (g.stack.peek 1) (g.stack.peek 0) :: g.stack.items.drop 2 := by
  obtain ⟨hs, hitems⟩ := spells_division (o := .mod) (s := .floorMod) hl rfl rfl (g.stack.peek 1) (g.stack.peek 0)
  refine ⟨_, .get ⟨?_, hs⟩, hitems⟩
  simp only [binary?, hleft, hright, Bool.and_self, if_true, arithmetic?]
  rfl

end Generator

/-- **Division rounds down.** The operands are of any types that count as numbers, and the divisor is not zero. The
quotient is the greatest integer that is not above the fraction, and the remainder is what it leaves. If the types say
that neither operand is negative, and this is true, then the code of each is one instruction and the result, whose type
says so as well, is not negative. -/
theorem divides_rounding_down {g : Generator} {a b : ℤ} {v w : Value} {S : List Value} {h : Heap} (hg : Underway g)
    (hleft : numeric (g.stack.peek 1) = true) (hright : numeric (g.stack.peek 0) = true) (hv : v.int? = some a)
    (hw : w.int? = some b) (hb : b ≠ 0)
    (hsign : ValueType.nonNegative (g.stack.peek 1) (g.stack.peek 0) = true → 0 ≤ a ∧ 0 ≤ b) :
    (Emission.Yields (Command.run (.binary .floorDiv)) g ⟨w :: v :: S, h⟩ (some ⟨.int ⌊(a / b : ℚ)⌋ :: S, h⟩) ∧
      Emission.Yields (Command.run (.binary .mod)) g ⟨w :: v :: S, h⟩ (some ⟨.int (a - b * ⌊(a / b : ℚ)⌋) :: S, h⟩)) ∧
    (∀ o ∈ [BinaryOp.floorDiv, .mod], ∃ g', (Command.run (.binary o)).run g = .ok () g' ∧
      g'.stack.items = .quotient (g.stack.peek 1) (g.stack.peek 0) :: g.stack.items.drop 2) ∧
    (ValueType.nonNegative (g.stack.peek 1) (g.stack.peek 0) = true →
      (∃ g', Prints (Command.run (.binary .floorDiv)) (.op .div) g g') ∧
      (∃ g', Prints (Command.run (.binary .mod)) (.op .mod) g g') ∧
      0 ≤ ⌊(a / b : ℚ)⌋ ∧ 0 ≤ a - b * ⌊(a / b : ℚ)⌋) := by
  obtain ⟨g₁, hdivide, hitems₁⟩ := prints_divide hg.legible hleft hright
  obtain ⟨g₂, hremainder, hitems₂⟩ := prints_remainder hg.legible hleft hright
  refine ⟨⟨hdivide.yields (Snippet.yields_divideBy hv hw hb hsign),
    hremainder.yields (Snippet.yields_remainderBy hv hw hb hsign)⟩, ?_, fun hn => ?_⟩
  · rintro o (_ | ⟨_, _ | ⟨_, ⟨⟩⟩⟩)
    · exact ⟨g₁, hdivide.run, hitems₁⟩
    · exact ⟨g₂, hremainder.run, hitems₂⟩
  · rw [Snippet.divideBy, if_pos hn] at hdivide
    rw [Snippet.remainderBy, if_pos hn] at hremainder
    have hcorrect : ¬ b * a.tmod b < 0 := not_lt.2 (mul_nonneg (hsign hn).2 (Int.tmod_nonneg b (hsign hn).1))
    refine ⟨⟨g₁, hdivide⟩, ⟨g₂, hremainder⟩, ?_, ?_⟩
    · rw [floor_div_eq_tdiv a hb, if_neg hcorrect]
      exact Int.tdiv_nonneg (hsign hn).1 (hsign hn).2
    · rw [sub_mul_floor_div a hb, if_neg hcorrect]
      exact Int.tmod_nonneg b (hsign hn).1

/-- A negative number is divided by a positive one, and a number that is not negative by a truth value. -/
theorem divides_rounding_down_signs :
    ∃ g g', Underway g ∧ g.stack.items = [.int, .int] ∧ Underway g' ∧ g'.stack.items = [.nonNegInt, .nonNegInt] ∧
      Emission.Yields (Command.run (.binary .floorDiv)) g ⟨[.int 2, .int (-7)], {}⟩ (some ⟨[.int (-4)], {}⟩) ∧
      Emission.Yields (Command.run (.binary .mod)) g' ⟨[.bool true, .int 7], {}⟩ (some ⟨[.int 0], {}⟩) := by
  have hints : typesAfter sequencesAndNumbers "main" [.load "i", .load "j"] = some [.int, .int] := by decide +kernel
  have hnats : typesAfter sequencesAndNumbers "main" [.integer 7, .integer 1] =
      some [.nonNegInt, .nonNegInt] := by decide +kernel
  obtain ⟨g, hg, hitems⟩ := underway_typesAfter hints
  obtain ⟨g', hg', hitems'⟩ := underway_typesAfter hnats
  have hpeek : g.stack.peek 1 = .int ∧ g.stack.peek 0 = .int := ⟨peek_of_items hitems 1, peek_of_items hitems 0⟩
  have hpeek' : g'.stack.peek 1 = .nonNegInt ∧ g'.stack.peek 0 = .nonNegInt :=
    ⟨peek_of_items hitems' 1, peek_of_items hitems' 0⟩
  have hneg := divides_rounding_down (a := -7) (b := 2) (v := .int (-7)) (w := .int 2) (S := []) (h := {}) hg
    (by rw [hpeek.1]; rfl) (by rw [hpeek.2]; rfl) rfl rfl (by decide) (by rw [hpeek.1, hpeek.2]; decide)
  have hpos := divides_rounding_down (a := 7) (b := 1) (v := .int 7) (w := .bool true) (S := []) (h := {}) hg'
    (by rw [hpeek'.1]; rfl) (by rw [hpeek'.2]; rfl) rfl rfl (by decide) fun _ => by decide
  rw [floor_div_eq (q := -4) (by decide)] at hneg
  rw [floor_div_eq (q := 7) (by decide)] at hpos
  exact ⟨g, g', hg, hitems, hg', hitems', hneg.1.1, hpos.1.2⟩

end NeoScript
