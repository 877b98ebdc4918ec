import Mathlib
import BayesGraph.Proofs.ExactIntegers
import BayesGraph.Proofs.ExtendedReals

/-!
# Integers among the extended reals

The integers belong to the extended reals as they do to the reals (`ExactIntegers`). What is to be
proved beside the facts about reals is how infinities and what is no number are compared with an
integer, and that their powers with integral exponents are those of repeated multiplication.
-/

set_option autoImplicit false

namespace BayesGraph

namespace Extended

variable {x y c : Extended}

/-! ## Arithmetic -/

/-- A sum of integers is the sum of the scalars. -/
theorem ofInt_add (m n : Int) :
    (Scalar.ofInt (m + n) : Extended) = Scalar.ofInt m + Scalar.ofInt n := by
  simp only [ofInt_eq, Int.cast_add, add_real]

/-- A difference of integers is the difference of the scalars. -/
theorem ofInt_sub (m n : Int) :
    (Scalar.ofInt (m - n) : Extended) = Scalar.ofInt m - Scalar.ofInt n := by
  rw [ofInt_eq, ofInt_eq, ofInt_eq, Int.cast_sub, sub_eq_add_neg]
  rfl

/-- A product of integers is the product of the scalars. -/
theorem ofInt_mul (m n : Int) :
    (Scalar.ofInt (m * n) : Extended) = Scalar.ofInt m * Scalar.ofInt n := by
  simp only [ofInt_eq, Int.cast_mul]
  rfl

/-- The opposite of an integer is the opposite scalar. -/
theorem ofInt_neg (n : Int) : (Scalar.ofInt (-n) : Extended) = -Scalar.ofInt n := by
  simp only [ofInt_eq, Int.cast_neg]
  rfl

/-- The absolute value of an integer is that of the scalar. -/
theorem abs_ofInt (n : Int) :
    (Scalar.ofInt (n.natAbs : Int) : Extended) = Scalar.abs (Scalar.ofInt n) := by
  have habs : Scalar.abs (real n) = real |(n : ℝ)| := rfl
  rw [ofInt_eq, ofInt_eq, habs, Int.natCast_natAbs, Int.cast_abs]

/-- An integer is its own integral part. -/
theorem trunc_ofInt (n : Int) : (Scalar.ofInt n : Extended) = Scalar.trunc (Scalar.ofInt n) := by
  have htrunc : Scalar.trunc (real n) =
      real (if 0 ≤ (n : ℝ) then ((⌊(n : ℝ)⌋ : ℤ) : ℝ) else ((⌈(n : ℝ)⌉ : ℤ) : ℝ)) := rfl
  rw [ofInt_eq, htrunc, Int.floor_intCast, Int.ceil_intCast, ite_self]

/-- Zero can be added in front without effect. -/
theorem zero_add_eq (x : Extended) : Scalar.ofInt 0 + x = x := by
  rw [scalar_zero]
  cases x with
  | real x => rw [add_real, zero_add]
  | nan | bottom | top => rfl

/-! ## Comparisons -/

/-- Integers are ordered as the scalars are. -/
theorem le_ofInt (m n : Int) :
    Scalar.le (Scalar.ofInt m : Extended) (Scalar.ofInt n) = decide (m ≤ n) := by
  rw [ofInt_eq, ofInt_eq]
  show decide ((m : ℝ) ≤ n) = decide (m ≤ n)
  simp

/-- Scalars are equal if each is at most the other one. -/
theorem eq_eq_le (x y : Extended) : Scalar.eq x y = (Scalar.le x y && Scalar.le y x) := by
  cases x with
  | real x =>
    cases y with
    | real y =>
      show decide (x = y) = (decide (x ≤ y) && decide (y ≤ x))
      rw [Bool.eq_iff_iff]
      simp [le_antisymm_iff]
    | nan | bottom | top => rfl
  | nan | bottom | top => cases y <;> rfl

/-- Rounded down, a real is at least an integer if it was so before. -/
theorem toInt?_floor (x : ℝ) : Scalar.toInt? (Scalar.floor (real x)) = some ⌊x⌋ := by
  show (if ((⌊x⌋ : ℤ) : ℝ) = ⌊((⌊x⌋ : ℤ) : ℝ)⌋ then some ⌊((⌊x⌋ : ℤ) : ℝ)⌋ else none) = some ⌊x⌋
  rw [Int.floor_intCast, if_pos rfl]

/-- An integer is compared with a known real as the scalars are. -/
theorem numbersLe_int_real (n : Int) (x : Extended) :
    Value.numbersLe (.int n) (.real x) = Scalar.le (Scalar.ofInt n) x := by
  cases x with
  | real x =>
    simp only [Value.numbersLe, toInt?_floor, ofInt_eq]
    show decide (n ≤ ⌊x⌋) = decide ((n : ℝ) ≤ x)
    simp only [Int.le_floor]
  | nan | bottom | top => rw [ofInt_eq]; rfl

/-- A known real and a known integer are compared as scalars. -/
theorem numbersLe_real_int (x : Extended) (n : Int) :
    Value.numbersLe (.real x) (.int n) = Scalar.le x (Scalar.ofInt n) := by
  cases x with
  | real x =>
    simp only [Value.numbersLe, neg_real, toInt?_floor, ofInt_eq]
    show decide (-⌊-x⌋ ≤ n) = decide (x ≤ (n : ℝ))
    simp only [Int.floor_neg, neg_neg, Int.ceil_le]
  | nan | bottom | top => rw [ofInt_eq]; rfl

/-! ## Extremes -/

/-- The greater one of two integers is the greater scalar. -/
theorem max_ofInt (m n : Int) :
    (Scalar.ofInt (max m n) : Extended) = Scalar.max (Scalar.ofInt m) (Scalar.ofInt n) := by
  simp only [Scalar.max, ofInt_eq, isNaN_real, lt_real, Int.cast_lt, decide_eq_true_eq]
  rcases lt_trichotomy m n with h | rfl | h
  · simp [h, max_eq_right h.le]
  · simp [Scalar.common]
  · simp [h, h.not_gt, max_eq_left h.le]

/-- The lesser one of two integers is the lesser scalar. -/
theorem min_ofInt (m n : Int) :
    (Scalar.ofInt (min m n) : Extended) = Scalar.min (Scalar.ofInt m) (Scalar.ofInt n) := by
  simp only [Scalar.min, ofInt_eq, isNaN_real, lt_real, Int.cast_lt, decide_eq_true_eq]
  rcases lt_trichotomy m n with h | rfl | h
  · simp [h, h.not_gt, min_eq_left h.le]
  · simp [Scalar.common]
  · simp [h, min_eq_right h.le]

/-! ## Powers -/

open Scalar in
/-- A power of a real is a real. -/
theorem naturalPower_real (acc : Option ℝ) (x : ℝ) (n : Nat) :
    naturalPower (acc.map real) (real x) n = real (acc.getD 1 * x ^ n) := by
  rw [← ExactReals.naturalPower_eq]
  induction n using Nat.strongRecOn generalizing acc x with
  | _ n ih =>
    have hproduct (a b : ℝ) : flushedProduct (real a) (real b) = real (flushedProduct a b) := rfl
    have hnext : nextFactor (acc.map real) (real x) n = (nextFactor acc x n).map real := by
      unfold nextFactor
      split
      · rfl
      · cases acc <;> rfl
    rw [naturalPower_step, naturalPower_step acc, hnext]
    split
    · cases nextFactor acc x n <;> rfl
    · next hge => rw [hproduct, ih (n / 2) (by omega)]

/-- A factor that absorbs what is its own square stays as it is. -/
theorem naturalPower_of_absorbs (hx : x * x = x) (hc : c * x = c) (n : Nat) :
    Scalar.naturalPower (some c) x n = c := by
  induction n using Nat.strongRecOn with
  | _ n ih =>
    have hsquare : Scalar.flushedProduct x x = x := hx
    have hnext : Scalar.nextFactor (some c) x n = some c := by
      unfold Scalar.nextFactor
      rw [Option.elim_some, show Scalar.flushedProduct c x = c from hc, ite_self]
    rw [Scalar.naturalPower_step, hnext, hsquare]
    split
    · rfl
    · exact ih (n / 2) (by omega)

/-- All powers of what is its own square are the same. -/
theorem naturalPower_of_square (hx : x * x = x) {n : Nat} (hn : n ≠ 0) :
    Scalar.naturalPower none x n = x := by
  induction n using Nat.strongRecOn with
  | _ n ih =>
    have hsquare : Scalar.flushedProduct x x = x := hx
    rw [Scalar.naturalPower_step, hsquare]
    unfold Scalar.nextFactor
    split
    · next hlt =>
      obtain rfl : n = 1 := by omega
      rfl
    · next hge =>
      split
      · exact ih (n / 2) (by omega) (by omega)
      · exact naturalPower_of_absorbs hx hx _

/-- The empty product is one. -/
theorem naturalPower_zero (x : Extended) : Scalar.naturalPower none x 0 = real 1 := by
  rw [Scalar.naturalPower_step, if_pos (by omega)]
  exact (ofInt_eq 1).trans (by rw [Int.cast_one])

/-- The top times itself is the top. -/
theorem top_mul_top : top * top = top := by
  show infinity (1 * 1) = top
  simp [infinity]

/-- The bottom times itself is the top. -/
theorem bottom_mul_bottom : bottom * bottom = top := by
  show infinity (-1 * -1) = top
  simp [infinity]

/-- The bottom times the top is the bottom. -/
theorem bottom_mul_top : bottom * top = bottom := by
  show infinity (-1 * 1) = bottom
  norm_num [infinity]

/-- The powers of the infinity below all numbers have the sign that the exponent asks for. -/
theorem naturalPower_bottom {n : Nat} (hn : n ≠ 0) :
    Scalar.naturalPower none bottom n = if Odd n then bottom else top := by
  have hsquare : Scalar.flushedProduct bottom bottom = top := bottom_mul_bottom
  rw [Scalar.naturalPower_step, hsquare]
  unfold Scalar.nextFactor
  rcases Nat.even_or_odd n with heven | hodd
  · rw [if_pos (Nat.even_iff.mp heven), if_neg (Nat.not_odd_iff_even.mpr heven)]
    obtain ⟨k, rfl⟩ := heven
    rw [if_neg (by omega)]
    exact naturalPower_of_square top_mul_top (by omega)
  · rw [if_pos hodd]
    have hmod : ¬ n % 2 = 0 := by
      rw [Nat.odd_iff] at hodd
      omega
    rw [if_neg hmod]
    split
    · rfl
    · exact naturalPower_of_absorbs top_mul_top bottom_mul_top _

/-- A negative exponent is one over a power. -/
theorem integralPower_eq (x : Extended) (n : Int) : Scalar.integralPower x n =
    if n < 0 then real 1 / Scalar.naturalPower none x n.natAbs
    else Scalar.naturalPower none x n.natAbs := by
  unfold Scalar.integralPower
  rw [ofInt_eq, Int.cast_one]
  rfl

/-- A real is divided by zero to an infinity or to no number, and by any other real exactly. -/
theorem real_div_real (x y : ℝ) :
    real x / real y = if y = 0 then infinity x else real (x / y) := rfl

/-- A negative power of a real. -/
theorem powReal_negSucc (x : ℝ) (k : Nat) :
    powReal x (Int.negSucc k : Int) = real 1 / real (x ^ (k + 1)) := by
  have hneg : ((Int.negSucc k : Int) : ℝ) < 0 := by
    exact_mod_cast Int.negSucc_lt_zero k
  have hpower : x ^ (Int.negSucc k) = 1 / x ^ (k + 1) := by
    rw [zpow_negSucc, one_div]
  unfold powReal
  rw [real_div_real, Int.floor_intCast]
  rcases lt_trichotomy x 0 with hx | rfl | hx
  · rw [if_neg (not_or_intro hx.not_gt hneg.ne), if_neg hx.ne, if_pos rfl,
      if_neg (pow_ne_zero _ hx.ne), hpower]
  · rw [if_neg (not_or_intro (lt_irrefl 0) hneg.ne), if_pos rfl, if_neg hneg.not_gt,
      if_pos (zero_pow k.succ_ne_zero), infinity, if_pos one_pos]
  · rw [if_pos (Or.inl hx), if_neg (pow_ne_zero _ hx.ne'), Real.rpow_intCast, hpower]

/-- A natural power of a real. -/
theorem powReal_natCast (x : ℝ) (k : Nat) : powReal x (k : Int) = real (x ^ k) := by
  unfold powReal
  rw [Int.floor_intCast, Int.cast_natCast, zpow_natCast, Real.rpow_natCast]
  split
  · rfl
  · next hcases =>
    rw [not_or, Nat.cast_eq_zero] at hcases
    have hk : (0 : ℝ) < k := by exact_mod_cast Nat.pos_of_ne_zero hcases.2
    split
    · next hzero => rw [hzero, zero_pow hcases.2]
    · rw [if_pos rfl]

/-- A power of a real with an integral exponent is computed by repeated multiplication. -/
theorem powReal_intCast (x : ℝ) (n : Int) : powReal x n = Scalar.integralPower (real x) n := by
  have hpower (k : Nat) : Scalar.naturalPower none (real x) k = real (x ^ k) := by
    rw [show (none : Option Extended) = (none : Option ℝ).map real from rfl, naturalPower_real,
      Option.getD_none, one_mul]
  rw [integralPower_eq, hpower]
  cases n with
  | ofNat k => exact powReal_natCast x k
  | negSucc k =>
    rw [if_pos (Int.negSucc_lt_zero k)]
    exact powReal_negSucc x k

/-- A power with an integral exponent is computed by repeated multiplication. -/
theorem pow_ofInt (x : Extended) (n : Int) :
    Scalar.pow x (Scalar.ofInt n) = Scalar.integralPower x n := by
  rw [ofInt_eq]
  show pow x (real n) = _
  by_cases hn : n = 0
  · subst hn
    rw [integralPower_eq, Int.natAbs_zero, naturalPower_zero]
    cases x <;> simp [pow, powReal]
  have habs : n.natAbs ≠ 0 := by omega
  have hcast : (n : ℝ) ≠ 0 := by exact_mod_cast hn
  have hpos : (0 : ℝ) < n ↔ ¬ n < 0 := by
    rw [Int.cast_pos]
    omega
  have hdiv : real 1 / top = real 0 ∧ real 1 / bottom = real 0 ∧ real 1 / nan = nan :=
    ⟨rfl, rfl, rfl⟩
  cases x with
  | real x => exact powReal_intCast x n
  | nan =>
    rw [integralPower_eq, naturalPower_of_square rfl habs, hdiv.2.2, ite_self]
    simp [pow, hcast, extend]
  | top =>
    rw [integralPower_eq, naturalPower_of_square top_mul_top habs, hdiv.1]
    by_cases hneg : n < 0 <;> simp [pow, hcast, extend, hpos, hneg]
  | bottom =>
    rw [integralPower_eq, naturalPower_bottom habs]
    by_cases hneg : n < 0
    · by_cases hodd : Odd n.natAbs <;> simp [pow, hcast, extend, hpos, hneg, hodd, hdiv]
    · simp [pow, hcast, extend, hpos, hneg, Int.natAbs_odd]

/-! ## Rounding to decimals -/

/-- A power of ten is a positive integer. -/
theorem ofDouble_powerOfTen {k : Nat} (hk : k < 309) :
    ∃ q : Int, q ≠ 0 ∧ (Scalar.ofDouble (Builtin.powerOfTen k) : Extended) = real q := by
  obtain ⟨hfinite, q, hq, hreal⟩ := ExactReals.toReal_powerOfTen hk
  generalize Builtin.powerOfTen k = d at hfinite hreal
  have hexponent : (d.biasedExponent == 2047) = false := by simpa [Double.isFinite] using hfinite
  refine ⟨q, hq, ?_⟩
  show ofDouble d = real _
  rw [ofDouble, Double.isNaN, Double.isInfinite, hexponent, hreal]
  rfl

/-- An integer is the nearest one to itself. -/
theorem round_intCast (n : Int) : Scalar.round (real n) = real n := by
  show real ((ExactReals.roundHalfEven n : Int) : ℝ) = real n
  rw [ExactReals.roundHalfEven_intCast]

/-- An integer is its own result when it is rounded to decimals. -/
theorem roundDense_ofInt (n decimals : Int) (h : 0 ≤ decimals) (h' : decimals ≤ 308) :
    Builtin.roundDense decimals (Scalar.ofInt n : Extended) = .ok (Scalar.ofInt n) := by
  obtain ⟨q, hq, hscale⟩ := ofDouble_powerOfTen (k := decimals.natAbs) (by omega)
  have hq' : (q : ℝ) ≠ 0 := by exact_mod_cast hq
  have hproduct : Scalar.flushedProduct (real n) (real q) = real ((n * q : Int) : ℝ) := by
    rw [Int.cast_mul]
    rfl
  have hquotient : real ((n * q : Int) : ℝ) / real q = real n := by
    rw [real_div_real, if_neg hq', Int.cast_mul, mul_div_cancel_right₀ _ hq']
  simp only [Builtin.roundDense, flush_eq, hscale, ofInt_eq, hproduct, round_intCast, hquotient,
    if_neg (show ¬ decimals < 0 by omega), if_neg (show ¬ 308 < decimals by omega), ite_self]

end Extended

open Extended in
/-- In the extended reals integers are computed with exactly. -/
instance : ExactIntegers Extended where
  ofInt_add := ofInt_add
  ofInt_sub := ofInt_sub
  ofInt_mul := ofInt_mul
  ofInt_neg := ofInt_neg
  abs_ofInt := abs_ofInt
  trunc_ofInt := trunc_ofInt
  max_ofInt := max_ofInt
  min_ofInt := min_ofInt
  le_ofInt := le_ofInt
  numbersLe_int_real := numbersLe_int_real
  numbersLe_real_int := numbersLe_real_int
  eq_eq_le := eq_eq_le
  common_nil _ := rfl
  pow_ofInt := pow_ofInt
  roundDense_ofInt := roundDense_ofInt

end BayesGraph
