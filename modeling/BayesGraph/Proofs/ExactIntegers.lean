import Mathlib
import BayesGraph.Builtin.Rounding
import BayesGraph.Proofs.ExactReals

/-!
# Integers among exact scalars

A number of the model or of the data can be an integer, and functions keep it integral where they
can. Over exact scalars this makes no difference to what is computed (`ExactIntegers`): sums,
products and extremes of integers are those of the scalars, a power with an integral exponent is
computed by repeated multiplication, an integer and a scalar are compared as two scalars are, and an
integer is its own result when it is rounded. The real numbers are such scalars.
-/

set_option autoImplicit false

namespace BayesGraph

/-- Exact scalars to which the integers belong: an operation has the same result, whether it is done
on integers or on the scalars of these integers. -/
class ExactIntegers (α : Type) [Scalar α] : Prop extends ExactScalar α where
  ofInt_add : ∀ m n : Int, (Scalar.ofInt (m + n) : α) = Scalar.ofInt m + Scalar.ofInt n
  ofInt_sub : ∀ m n : Int, (Scalar.ofInt (m - n) : α) = Scalar.ofInt m - Scalar.ofInt n
  ofInt_mul : ∀ m n : Int, (Scalar.ofInt (m * n) : α) = Scalar.ofInt m * Scalar.ofInt n
  ofInt_neg : ∀ n : Int, (Scalar.ofInt (-n) : α) = -Scalar.ofInt n
  abs_ofInt : ∀ n : Int, (Scalar.ofInt (n.natAbs : Int) : α) = Scalar.abs (Scalar.ofInt n)
  trunc_ofInt : ∀ n : Int, (Scalar.ofInt n : α) = Scalar.trunc (Scalar.ofInt n)
  max_ofInt : ∀ m n : Int,
    (Scalar.ofInt (max m n) : α) = Scalar.max (Scalar.ofInt m) (Scalar.ofInt n)
  min_ofInt : ∀ m n : Int,
    (Scalar.ofInt (min m n) : α) = Scalar.min (Scalar.ofInt m) (Scalar.ofInt n)
  le_ofInt : ∀ m n : Int, Scalar.le (Scalar.ofInt m : α) (Scalar.ofInt n) = decide (m ≤ n)
  numbersLe_int_real : ∀ (n : Int) (x : α),
    Value.numbersLe (.int n) (.real x) = Scalar.le (Scalar.ofInt n) x
  numbersLe_real_int : ∀ (x : α) (n : Int),
    Value.numbersLe (.real x) (.int n) = Scalar.le x (Scalar.ofInt n)
  eq_eq_le : ∀ x y : α, Scalar.eq x y = (Scalar.le x y && Scalar.le y x)
  common_nil : ∀ x : α, Scalar.common x [] = x
  pow_ofInt : ∀ (x : α) (n : Int), Scalar.pow x (Scalar.ofInt n) = Scalar.integralPower x n
  roundDense_ofInt : ∀ n decimals : Int, 0 ≤ decimals → decimals ≤ 308 →
    Builtin.roundDense decimals (Scalar.ofInt n : α) = .ok (Scalar.ofInt n)

/-! ## Powers -/

namespace Scalar

variable {α : Type} [Scalar α]

/-- The factor that a step of repeated squaring passes on. -/
def nextFactor (acc : Option α) (x : α) (n : Nat) : Option α :=
  if n % 2 = 0 then acc else some (acc.elim x fun a => flushedProduct a x)

/-- One step of repeated squaring. -/
theorem naturalPower_step (acc : Option α) (x : α) (n : Nat) : naturalPower acc x n =
    if n < 2 then (nextFactor acc x n).getD (ofInt 1)
    else naturalPower (nextFactor acc x n) (flushedProduct x x) (n / 2) := by
  rw [naturalPower.eq_def]
  cases acc <;> rfl

/-- The only one of some scalars is the extreme one. -/
theorem extreme_single [ExactIntegers α] (better : α → α → Bool) (x : α) :
    extreme better x [] = x := by
  unfold extreme
  cases hnan : isNaN x with
  | true => simp [hnan]
  | false =>
    have heq : eq x x = true := by simpa [isNaN] using hnan
    simp [hnan, heq, ExactIntegers.common_nil]

end Scalar

namespace ExactReals

open Scalar in
/-- Repeated squaring computes a power of a real. -/
theorem naturalPower_eq (acc : Option ℝ) (x : ℝ) (n : Nat) :
    naturalPower acc x n = acc.getD 1 * x ^ n := by
  induction n using Nat.strongRecOn generalizing acc x with
  | _ n ih =>
    have hproduct (a b : ℝ) : flushedProduct a b = a * b := rfl
    have hnext : (nextFactor acc x n).getD 1 = acc.getD 1 * x ^ (n % 2) := by
      unfold nextFactor
      rcases Nat.mod_two_eq_zero_or_one n with h | h
      · simp [h]
      · cases acc <;> simp [h, hproduct]
    rw [naturalPower_step]
    split
    · next hlt =>
      rw [ofInt_eq, Int.cast_one, hnext]
      interval_cases n <;> simp
    · next hge =>
      rw [ih (n / 2) (by omega), hnext, hproduct, ← pow_two, ← pow_mul, mul_assoc, ← pow_add,
        Nat.mod_add_div]

/-- A power with an integral exponent is computed by repeated multiplication. -/
theorem pow_ofInt (x : ℝ) (n : Int) : Scalar.pow x (Scalar.ofInt n) = Scalar.integralPower x n := by
  have hpower : Scalar.pow x (Scalar.ofInt n) = x ^ n := by
    rw [ofInt_eq]
    exact Real.rpow_intCast x n
  have hintegral : Scalar.integralPower x n =
      if n < 0 then Scalar.ofInt 1 / Scalar.naturalPower none x n.natAbs
      else Scalar.naturalPower none x n.natAbs := rfl
  rw [hpower, hintegral, naturalPower_eq, ofInt_eq, Option.getD_none, one_mul, Int.cast_one]
  cases n with
  | ofNat k => exact zpow_natCast x k
  | negSucc k =>
    rw [if_pos (Int.negSucc_lt_zero k), one_div]
    exact zpow_negSucc x k

/-! ## Comparisons and extremes -/

/-- Rounded down, a real is an integer. -/
theorem toInt?_floor (x : ℝ) : Scalar.toInt? (Scalar.floor x) = some ⌊x⌋ := by
  change (if ((⌊x⌋ : ℤ) : ℝ) = ⌊((⌊x⌋ : ℤ) : ℝ)⌋ then some ⌊((⌊x⌋ : ℤ) : ℝ)⌋ else none) = some ⌊x⌋
  rw [Int.floor_intCast, if_pos rfl]

/-- All reals are numbers. -/
theorem isNaN_eq_false (x : ℝ) : Scalar.isNaN x = false := by
  change (!decide (x = x)) = false
  simp

/-- The larger of two reals; the first one if they are equal. -/
theorem max_eq (a b : ℝ) : Scalar.max a b = if a < b then b else a := by
  unfold Scalar.max
  rw [isNaN_eq_false, isNaN_eq_false]
  change (if decide (a < b) = true then b else if decide (b < a) = true then a else a) = _
  simp

/-- The smaller of two reals; the first one if they are equal. -/
theorem min_eq (a b : ℝ) : Scalar.min a b = if b < a then b else a := by
  unfold Scalar.min
  rw [isNaN_eq_false, isNaN_eq_false]
  change (if decide (b < a) = true then b else if decide (a < b) = true then a else a) = _
  simp

/-! ## Rounding to decimals -/

/-- A power of ten as a double: no infinity, not negative, integral and not zero. -/
theorem powerOfTen_spec : ∀ k ∈ List.range 309,
    (Builtin.powerOfTen k).isFinite = true ∧ (Builtin.powerOfTen k).isNegative = false ∧
      (Builtin.powerOfTen k).denominator ∣ (Builtin.powerOfTen k).numerator ∧
      (Builtin.powerOfTen k).numerator ≠ 0 := by
  decide +kernel

/-- A power of ten is a positive integer. -/
theorem toReal_powerOfTen {k : Nat} (hk : k < 309) :
    (Builtin.powerOfTen k).isFinite = true ∧
      ∃ q : Int, q ≠ 0 ∧ (Builtin.powerOfTen k).toReal = (q : ℝ) := by
  obtain ⟨hfinite, hsign, hdvd, hne⟩ := powerOfTen_spec k (List.mem_range.mpr hk)
  generalize Builtin.powerOfTen k = d at hfinite hsign hdvd hne
  obtain ⟨q, hq⟩ := hdvd
  have hden : d.denominator ≠ 0 := by
    intro hzero
    rw [hzero, Nat.zero_mul] at hq
    exact hne hq
  refine ⟨hfinite, q, ?_, ?_⟩
  · rintro hzero
    rw [Int.natCast_eq_zero] at hzero
    rw [hzero, Nat.mul_zero] at hq
    exact hne hq
  · rw [Double.toReal, if_pos hfinite, hsign, hq]
    have hden' : (d.denominator : ℝ) ≠ 0 := by exact_mod_cast hden
    simp [hden']

/-- An integer is the nearest one to itself. -/
theorem roundHalfEven_intCast (n : Int) : roundHalfEven n = n := by
  rw [roundHalfEven, Int.fract_intCast, sub_zero, if_pos one_pos, Int.floor_intCast]

/-- An integer is its own result when it is rounded to decimals. -/
theorem roundDense_ofInt (n decimals : Int) (h : 0 ≤ decimals) (h' : decimals ≤ 308) :
    Builtin.roundDense decimals (Scalar.ofInt n : ℝ) = .ok (Scalar.ofInt n) := by
  obtain ⟨-, q, hq, hscale⟩ := toReal_powerOfTen (k := decimals.natAbs) (by omega)
  have hq' : (q : ℝ) ≠ 0 := by exact_mod_cast hq
  have hscale' : (Scalar.ofDouble (Builtin.powerOfTen decimals.natAbs) : ℝ) = q := hscale
  have hproduct : Scalar.flushedProduct (n : ℝ) (q : ℝ) = ((n * q : Int) : ℝ) := by
    rw [Int.cast_mul]
    rfl
  have hround (k : Int) : Scalar.round (k : ℝ) = k :=
    congrArg Int.cast (roundHalfEven_intCast k)
  have hquotient : ((n * q : Int) : ℝ) / q = n := by
    rw [Int.cast_mul, mul_div_cancel_right₀ _ hq']
  simp only [Builtin.roundDense, flush_eq, hscale', ofInt_eq, hproduct, hround, hquotient,
    if_neg (show ¬ decimals < 0 by omega), if_neg (show ¬ 308 < decimals by omega), ite_self]

end ExactReals

open ExactReals in
/-- In the reals integers are computed with exactly. -/
instance : ExactIntegers ℝ where
  ofInt_add m n := by simp
  ofInt_sub m n := by simp
  ofInt_mul m n := by simp
  ofInt_neg n := by simp
  abs_ofInt n := by
    rw [ofInt_eq, ofInt_eq, Int.natCast_natAbs, Int.cast_abs]
    rfl
  trunc_ofInt n := by
    have htrunc : Scalar.trunc (n : ℝ) =
        if 0 ≤ (n : ℝ) then ((⌊(n : ℝ)⌋ : ℤ) : ℝ) else ((⌈(n : ℝ)⌉ : ℤ) : ℝ) := rfl
    rw [ofInt_eq, htrunc, Int.floor_intCast, Int.ceil_intCast, ite_self]
  max_ofInt m n := by
    rw [max_eq, ofInt_eq, ofInt_eq, ofInt_eq, max_def_lt]
    simp only [Int.cast_lt]
    split <;> rfl
  min_ofInt m n := by
    rw [min_eq, ofInt_eq, ofInt_eq, ofInt_eq, min_comm, min_def_lt]
    simp only [Int.cast_lt]
    split <;> rfl
  le_ofInt m n := by
    rw [ofInt_eq, ofInt_eq]
    change decide ((m : ℝ) ≤ n) = decide (m ≤ n)
    simp
  numbersLe_int_real n x := by
    simp only [Value.numbersLe, toInt?_floor, ofInt_eq]
    change decide (n ≤ ⌊x⌋) = decide ((n : ℝ) ≤ x)
    simp only [Int.le_floor]
  numbersLe_real_int x n := by
    simp only [Value.numbersLe, toInt?_floor, ofInt_eq]
    change decide (-⌊-x⌋ ≤ n) = decide (x ≤ (n : ℝ))
    simp only [Int.floor_neg, neg_neg, Int.ceil_le]
  eq_eq_le x y := by
    change decide (x = y) = (decide (x ≤ y) && decide (y ≤ x))
    rw [Bool.eq_iff_iff]
    simp [le_antisymm_iff]
  common_nil _ := rfl
  pow_ofInt := pow_ofInt
  roundDense_ofInt := roundDense_ofInt

end BayesGraph
