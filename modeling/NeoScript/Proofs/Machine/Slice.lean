import Mathlib.Data.List.Basic
import Mathlib.Tactic.Linarith
import Mathlib.Tactic.Ring

/-!
# Slices

What a slice `start:stop:step` of a sequence is. A negative bound counts from the end. A bound outside of the sequence
is moved to the nearest place at which a walk in the direction of the step can start or stop, and a missing one is the
place at which a walk through the whole sequence does.
-/

namespace NeoScript

open List

/-- The slice `start:stop:step`. -/
structure Slice where
  start : Option Int := none
  stop : Option Int := none
  step : Int := 1
  deriving DecidableEq, Repr

namespace Slice

variable {α : Type}

/-- A bound that counts from the start of a sequence of `n` items. -/
def fromStart (n : Nat) (b : Int) : Int := if b < 0 then b + n else b

/-- The place of a bound for walks in the direction of `step`. -/
def place (step : Int) (n : Nat) (b : Int) : Int :=
  if step < 0 then max (-1) (min (n - 1) (fromStart n b)) else max 0 (min n (fromStart n b))

/-- Where the walk starts. -/
def first (s : Slice) (n : Nat) : Int :=
  match s.start with
  | some b => place s.step n b
  | none => if s.step < 0 then n - 1 else 0

/-- What the walk does not reach any more. -/
def last (s : Slice) (n : Nat) : Int :=
  match s.stop with
  | some b => place s.step n b
  | none => if s.step < 0 then -1 else n

/-- Whether a position comes before the end of the walk. -/
def before (s : Slice) (n : Nat) (p : Int) : Bool := if s.step < 0 then s.last n < p else p < s.last n

/-- The positions on the walk: `first`, `first + step`, and so on before `last`. No walk has more of them than the
sequence has items. -/
def positions (s : Slice) (n : Nat) : List Int :=
  ((List.range n).map fun (j : Nat) => s.first n + j * s.step).filter (s.before n)

/-- **The slice of a sequence**: the items at the positions on the walk. -/
def get (s : Slice) (xs : List α) : List α := (s.positions xs.length).filterMap fun p => xs[p.toNat]?

example : ({ start := some (-3), stop := some 10 } : Slice).get [1, 2, 3, 4, 5] = [3, 4, 5] := by decide
example : ({ start := some 3, stop := some 0, step := -2 } : Slice).get [1, 2, 3, 4, 5] = [4, 2] := by decide
example : ({ step := -1 } : Slice).get [1, 2, 3] = [3, 2, 1] := by decide

/-! ### Blocks and picks -/

/-- The items from position `lo` up to, but without, position `hi`. -/
def block (lo hi : Nat) (xs : List α) : List α := (xs.take hi).drop lo

lemma getElem?_block (lo hi i : Nat) (xs : List α) : (block lo hi xs)[i]? = if lo + i < hi then xs[lo + i]? else none := by
  rw [block, getElem?_drop, getElem?_take]

lemma length_block (lo : Nat) {hi : Nat} {xs : List α} (hhi : hi ≤ xs.length) : (block lo hi xs).length = hi - lo := by
  rw [block, length_drop, length_take, Nat.min_eq_left hhi]

/-- The first `n` of the items at multiples of `k`. -/
def picks (k n : Nat) (xs : List α) : List α := (List.range n).filterMap fun j => xs[j * k]?

lemma picks_succ (k n : Nat) (xs : List α) : picks k (n + 1) xs = picks k n xs ++ (xs[n * k]?).toList := by
  rw [picks, range_succ, filterMap_append]
  cases h : xs[n * k]? <;> simp [picks, h]

/-- Behind the end there is nothing to pick. -/
lemma picks_of_length_le {k n m : Nat} {xs : List α} (hn : xs.length ≤ n * k) (hm : n ≤ m) : picks k m xs = picks k n xs := by
  induction hm with
  | refl => rfl
  | @step m hm ih =>
    have hle : xs.length ≤ m * k := le_trans hn (Nat.mul_le_mul_right k hm)
    rw [picks_succ, ih, getElem?_eq_none hle, Option.toList_none, append_nil]

lemma picks_one (xs : List α) : picks 1 xs.length xs = xs := by
  have h : ∀ n ≤ xs.length, picks 1 n xs = xs.take n := by
    intro n hn
    induction n with
    | zero => rfl
    | succ n ih => rw [picks_succ, ih (Nat.le_of_succ_le hn), mul_one, take_add_one]
  rw [h _ (le_refl _), take_length]

/-- The items at multiples of `k`, in a list whose first item is at position `i`. -/
def sieve (k : Nat) : (i : Nat) → List α → List α
  | _, [] => []
  | i, x :: xs => if i % k = 0 then x :: sieve k (i + 1) xs else sieve k (i + 1) xs

lemma sieve_skip {k i r : Nat} (h : ∀ j < r, (i + j) % k ≠ 0) (xs : List α) :
    sieve k i xs = sieve k (i + r) (xs.drop r) := by
  induction r generalizing i xs with
  | zero => rfl
  | succ r ih =>
    cases xs with
    | nil => rfl
    | cons x xs =>
      have hnext : ∀ j < r, (i + 1 + j) % k ≠ 0 := fun j hj => by
        have := h (j + 1) (Nat.succ_lt_succ hj)
        rwa [add_comm j 1, ← add_assoc] at this
      have hfirst : i % k ≠ 0 := h 0 (Nat.succ_pos r)
      rw [sieve, if_neg hfirst, ih hnext, drop_succ_cons, add_assoc, add_comm 1 r]

lemma sieve_multiple {k : Nat} (hk : 0 < k) (j : Nat) (x : α) (xs : List α) :
    sieve k (j * k) (x :: xs) = x :: sieve k ((j + 1) * k) (xs.drop (k - 1)) := by
  have hgap : ∀ l < k - 1, (j * k + 1 + l) % k ≠ 0 := fun l hl => by
    rw [add_assoc, add_comm, Nat.add_mul_mod_self_right, Nat.mod_eq_of_lt (by omega)]
    omega
  rw [sieve, if_pos (Nat.mul_mod_left j k), sieve_skip hgap]
  congr 2
  rw [add_assoc, Nat.add_sub_cancel' hk, Nat.succ_mul]

lemma sieve_eq_picks {k n : Nat} (hk : 0 < k) {xs : List α} (hn : xs.length ≤ n) : sieve k 0 xs = picks k n xs := by
  have h : ∀ n j, xs.length ≤ (j + n) * k →
      sieve k (j * k) (xs.drop (j * k)) = (range' j n).filterMap fun l => xs[l * k]? := by
    intro n
    induction n with
    | zero =>
      intro j hj
      rw [add_zero] at hj
      rw [drop_eq_nil_of_le hj]
      rfl
    | succ n ih =>
      intro j hj
      have hrest := ih (j + 1) (by rwa [add_right_comm])
      rw [range'_succ, filterMap_cons]
      cases hd : xs.drop (j * k) with
      | nil =>
        have hle : xs.length ≤ j * k := drop_eq_nil_iff.1 hd
        rw [getElem?_eq_none hle, ← hrest, drop_eq_nil_of_le (le_trans hle (Nat.mul_le_mul_right k (Nat.le_succ j)))]
        rfl
      | cons y ys =>
        have hy : xs[j * k]? = some y := by
          rw [← head?_drop, hd]
          rfl
        have hys : ys.drop (k - 1) = xs.drop ((j + 1) * k) := by
          rw [Nat.succ_mul, ← drop_drop, hd]
          obtain ⟨k, rfl⟩ := Nat.exists_eq_add_of_lt hk
          simp
        rw [sieve_multiple hk, hy, hys, hrest]
  have h0 := h n 0 (by rw [zero_add]; exact le_trans hn (Nat.le_mul_of_pos_right n hk))
  rw [zero_mul, drop_zero] at h0
  rw [h0, picks, range_eq_range']

/-! ### Walks -/

variable {s : Slice} {n : Nat}

lemma first_up (hs : 0 < s.step) : 0 ≤ s.first n ∧ s.first n ≤ n := by
  unfold first place
  split <;> grind

lemma last_up (hs : 0 < s.step) : 0 ≤ s.last n ∧ s.last n ≤ n := by
  unfold last place
  split <;> grind

lemma first_down (hs : s.step < 0) : -1 ≤ s.first n ∧ s.first n < n := by
  unfold first place
  split <;> grind

lemma last_down (hs : s.step < 0) : -1 ≤ s.last n ∧ s.last n < n := by
  unfold last place
  split <;> grind

lemma get_eq_filterMap (s : Slice) (xs : List α) : s.get xs = (range xs.length).filterMap fun (j : Nat) =>
    if s.before xs.length (s.first xs.length + j * s.step) then xs[(s.first xs.length + j * s.step).toNat]? else none := by
  rw [get, positions, filterMap_filter, filterMap_map]
  rfl

/-- A walk up picks items of the block between its bounds. -/
lemma get_up (hs : 0 < s.step) (xs : List α) :
    s.get xs = picks s.step.toNat xs.length (block (s.first xs.length).toNat (s.last xs.length).toNat xs) := by
  rw [get_eq_filterMap, picks]
  refine filterMap_congr fun j _ => ?_
  have hfirst := first_up (n := xs.length) hs
  have hlast := last_up (n := xs.length) hs
  have hq : (j : Int) * s.step = ((j * s.step.toNat : Nat) : Int) := by
    rw [Nat.cast_mul, Int.toNat_of_nonneg (Int.le_of_lt hs)]
  rw [getElem?_block, hq]
  generalize j * s.step.toNat = q
  have hbefore : s.before xs.length (s.first xs.length + q) = true ↔
      (s.first xs.length).toNat + q < (s.last xs.length).toNat := by
    rw [before, if_neg (by omega), decide_eq_true_eq]
    omega
  by_cases h : (s.first xs.length).toNat + q < (s.last xs.length).toNat
  · rw [if_pos h, if_pos (hbefore.2 h)]
    congr 1
    omega
  · rw [if_neg h, if_neg (mt hbefore.1 h)]

/-- A walk down picks items of the block between its bounds, turned round. -/
lemma get_down (hs : s.step < 0) (xs : List α) : s.get xs = picks (-s.step).toNat xs.length
      (block (s.last xs.length + 1).toNat (s.first xs.length + 1).toNat xs).reverse := by
  rw [get_eq_filterMap, picks]
  refine filterMap_congr fun j _ => ?_
  have hfirst := first_down (n := xs.length) hs
  have hlast := last_down (n := xs.length) hs
  have hq : (j : Int) * s.step = -((j * (-s.step).toNat : Nat) : Int) := by
    rw [Nat.cast_mul, Int.toNat_of_nonneg (by omega), Int.mul_neg, Int.neg_neg]
  rw [hq]
  generalize j * (-s.step).toNat = q
  have hhi : (s.first xs.length + 1).toNat ≤ xs.length := by omega
  have hlength := length_block (s.last xs.length + 1).toNat hhi
  have hbefore : s.before xs.length (s.first xs.length + -q) = true ↔
      q < (s.first xs.length + 1).toNat - (s.last xs.length + 1).toNat := by
    rw [before, if_pos hs, decide_eq_true_eq]
    omega
  by_cases h : q < (s.first xs.length + 1).toNat - (s.last xs.length + 1).toNat
  · rw [if_pos (hbefore.2 h), getElem?_reverse (by rw [hlength]; exact h), getElem?_block, hlength, if_pos (by omega)]
    congr 1
    omega
  · rw [if_neg (mt hbefore.1 h), getElem?_eq_none]
    rw [length_reverse, hlength]
    omega

/-- A slice without step is the block between its bounds. -/
lemma get_one (hs : s.step = 1) (xs : List α) :
    s.get xs = block (s.first xs.length).toNat (s.last xs.length).toNat xs := by
  have hlast := last_up (s := s) (n := xs.length) (by omega)
  have hhi : (s.last xs.length).toNat ≤ xs.length := by omega
  have hlength := length_block (s.first xs.length).toNat hhi
  rw [get_up (by omega), hs, Int.toNat_one, picks_of_length_le (le_of_eq (mul_one _).symm) (by omega), picks_one]

end Slice

end NeoScript
