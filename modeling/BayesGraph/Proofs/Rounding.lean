import BayesGraph.Decimal
import BayesGraph.Proofs.ExactReals
import BayesGraph.Proofs.FiniteDoubles

/-!
# The reals that round to a double

A finite double is `± mantissa * 2 ^ exponent`, and its bits are determined by these parts. The
reals that round to it reach half a gap to each side, which `Decimal.readsBack` decides for a
quotient of natural numbers. `nearest` takes all these quotients back to the double
(`nearest_of_rounds`); in particular it takes back the double's own magnitude, however the quotient
is written.
-/

set_option autoImplicit false

namespace BayesGraph

namespace Double

/-! ## Parts of a double -/

section Parts

variable (x : Double)

/-- The bits of the exponent. -/
theorem biasedExponent_eq : x.biasedExponent = x.bits.toNat / 2 ^ 52 % 2 ^ 11 := by
  unfold biasedExponent
  rw [UInt64.toNat_and, UInt64.toNat_shiftRight, Nat.shiftRight_eq_div_pow]
  exact Nat.and_two_pow_sub_one_eq_mod _ 11

/-- The bits of the fraction. -/
theorem fraction_eq : x.fraction = x.bits.toNat % 2 ^ 52 := by
  unfold fraction
  rw [UInt64.toNat_and]
  exact Nat.and_two_pow_sub_one_eq_mod _ 52

/-- The bit of the sign. -/
theorem isNegative_iff : x.isNegative = true ↔ 2 ^ 63 ≤ x.bits.toNat := by
  have hlt := x.bits.toNat_lt
  have hshift : (x.bits >>> 63).toNat = x.bits.toNat / 2 ^ 63 := by
    rw [UInt64.toNat_shiftRight, Nat.shiftRight_eq_div_pow]
    rfl
  unfold isNegative
  rw [beq_iff_eq, ← UInt64.toNat_inj, hshift]
  change x.bits.toNat / 2 ^ 63 = 1 ↔ _
  omega

/-- The mantissa has at most 53 bits. -/
theorem mantissa_lt : x.mantissa < 2 ^ 53 := by
  have hfraction := x.fraction_eq
  unfold mantissa
  rw [Nat.pow_eq]
  split <;> omega

/-- The least exponent is that of the subnormal doubles. -/
theorem le_exponent : -1074 ≤ x.exponent := by
  unfold exponent
  split <;> omega

/-- Only the smallest doubles have a mantissa without its highest bit. -/
theorem le_mantissa (h : -1074 < x.exponent) : 2 ^ 52 ≤ x.mantissa := by
  unfold exponent at h
  unfold mantissa
  by_cases hzero : x.biasedExponent = 0
  · rw [if_pos hzero] at h
    omega
  · rw [if_neg hzero]
    exact Nat.le_add_left _ _

variable {x}

/-- The greatest exponent of a finite double. -/
theorem exponent_le (h : x.isFinite = true) : x.exponent ≤ 971 := by
  rw [isFinite_iff, ← biasedExponent_eq] at h
  have hbiased := x.biasedExponent_eq
  unfold exponent
  split <;> omega

/-- Sign, mantissa and exponent make up the double. -/
theorem ofParts_parts (h : x.isFinite = true) :
    ofParts x.isNegative x.mantissa x.exponent = x := by
  have hbiased := x.biasedExponent_eq
  have hfraction := x.fraction_eq
  have hlt := x.bits.toNat_lt
  have hexponent := exponent_le h
  have hmagnitude : (if x.mantissa < Nat.pow 2 52 then x.mantissa
      else if x.exponent > 971 then 2047 * Nat.pow 2 52
      else (x.exponent + 1075).toNat * Nat.pow 2 52 + (x.mantissa - Nat.pow 2 52)) =
      x.bits.toNat % 2 ^ 63 := by
    rw [if_neg (Int.not_lt.mpr hexponent)]
    unfold mantissa exponent
    simp only [Nat.pow_eq]
    by_cases hzero : x.biasedExponent = 0
    · simp only [if_pos hzero]
      rw [if_pos (by omega)]
      omega
    · simp only [if_neg hzero]
      rw [if_neg (by omega)]
      omega
  have hsign : (if x.isNegative then Nat.pow 2 63 else 0) = x.bits.toNat / 2 ^ 63 * 2 ^ 63 := by
    have hnegative := x.isNegative_iff
    simp only [Nat.pow_eq]
    split
    · simp_all
      omega
    · simp_all
  unfold ofParts
  dsimp only
  rw [hmagnitude, hsign, Nat.mod_add_div']
  obtain ⟨bits⟩ := x
  simp

end Parts

/-- The magnitude of a finite double. -/
noncomputable def magnitude (x : Double) : ℝ := x.mantissa * 2 ^ x.exponent

/-- A quotient in units of a power of two. -/
theorem scaled_quotient (num den : Nat) (e : ℤ) :
    ((num * Nat.pow 2 (-e).toNat : ℕ) : ℝ) / ((den * Nat.pow 2 e.toNat : ℕ) : ℝ) =
      (num / den : ℝ) / 2 ^ e := by
  rw [zpow_eq_toNat]
  simp only [Nat.pow_eq]
  push_cast
  rw [div_div_div_eq]

section Scaled

variable {num den : Nat} (hden : 0 < den) (e : ℤ) (k : Nat)

include hden

/-- An integer is at most a scaled quotient. -/
theorem scaled_le_iff : k * (den * Nat.pow 2 e.toNat) ≤ num * Nat.pow 2 (-e).toNat ↔
    (k : ℝ) ≤ (num / den : ℝ) / 2 ^ e := by
  have hunit : 0 < den * Nat.pow 2 e.toNat := Nat.mul_pos hden (Nat.pow_pos Nat.two_pos)
  rw [← scaled_quotient, le_div_iff₀ (by exact_mod_cast hunit)]
  norm_cast

/-- A scaled quotient is at most an integer. -/
theorem le_scaled_iff : num * Nat.pow 2 (-e).toNat ≤ k * (den * Nat.pow 2 e.toNat) ↔
    (num / den : ℝ) / 2 ^ e ≤ k := by
  have hunit : 0 < den * Nat.pow 2 e.toNat := Nat.mul_pos hden (Nat.pow_pos Nat.two_pos)
  rw [← scaled_quotient, div_le_iff₀ (by exact_mod_cast hunit)]
  norm_cast

/-- An integer is less than a scaled quotient. -/
theorem scaled_lt_iff : k * (den * Nat.pow 2 e.toNat) < num * Nat.pow 2 (-e).toNat ↔
    (k : ℝ) < (num / den : ℝ) / 2 ^ e := by
  rw [← not_le, le_scaled_iff hden, not_le]

/-- A scaled quotient is less than an integer. -/
theorem lt_scaled_iff : num * Nat.pow 2 (-e).toNat < k * (den * Nat.pow 2 e.toNat) ↔
    (num / den : ℝ) / 2 ^ e < k := by
  rw [← not_le, scaled_le_iff hden, not_le]

end Scaled

/-- The denominator of a double is positive. -/
theorem denominator_pos (x : Double) : 0 < x.denominator := Nat.pow_pos Nat.two_pos

/-- The quotient of the integers of a double is its magnitude. -/
theorem numerator_div_denominator (x : Double) :
    (x.numerator / x.denominator : ℝ) = x.magnitude := by
  unfold numerator denominator magnitude
  rw [zpow_eq_toNat]
  simp only [Nat.pow_eq]
  push_cast
  ring

/-- Zero has no mantissa. -/
theorem mantissa_eq_zero {x : Double} (h : x.isZero = true) : x.mantissa = 0 := by
  rw [isZero, Bool.and_eq_true, beq_iff_eq, beq_iff_eq] at h
  rw [mantissa, if_pos h.1, h.2]

/-- Any other double has a mantissa. -/
theorem mantissa_pos {x : Double} (h : ¬ x.isZero = true) : 0 < x.mantissa := by
  rw [isZero, Bool.and_eq_true, beq_iff_eq, beq_iff_eq, not_and] at h
  unfold mantissa
  split
  · next hzero => exact Nat.pos_of_ne_zero (h hzero)
  · exact Nat.add_pos_right _ (Nat.pow_pos Nat.two_pos)

/-- Any double but zero has a positive magnitude. -/
theorem magnitude_pos {x : Double} (h : ¬ x.isZero = true) : 0 < x.magnitude := by
  have hmantissa : (0 : ℝ) < x.mantissa := by exact_mod_cast mantissa_pos h
  unfold magnitude
  positivity

/-! ## Rounding -/

/-- An integer is what a quotient rounds to if it is no further away than one half; if it is odd, it
has to be nearer. -/
theorem roundQuotient_eq {num den k : Nat} (hden : 0 < den) (hnear : |(num / den : ℝ) - k| ≤ 1 / 2)
    (hodd : k % 2 = 1 → |(num / den : ℝ) - k| < 1 / 2) : roundQuotient num den = k := by
  have hden' : (0 : ℝ) < den := by exact_mod_cast hden
  have hscale : |(num / den : ℝ) - k| = |(num : ℝ) - k * den| / den := by
    rw [← abs_of_pos hden', ← abs_div, abs_of_pos hden']
    congr 1
    field_simp
  rw [hscale, div_le_iff₀ hden', abs_le] at hnear
  rw [hscale, div_lt_iff₀ hden', abs_lt] at hodd
  have hlow : 2 * (k * den) ≤ 2 * num + den := by
    have h := hnear.1
    rify
    linarith
  have hhigh : 2 * num ≤ 2 * (k * den) + den := by
    have h := hnear.2
    rify
    linarith
  have hstrict : k % 2 = 1 → 2 * (k * den) < 2 * num + den ∧ 2 * num < 2 * (k * den) + den := by
    intro hk
    obtain ⟨h, h'⟩ := hodd hk
    constructor
    · rify
      linarith
    · rify
      linarith
  have hdivision := Nat.div_add_mod' num den
  have hremainder := Nat.mod_lt num hden
  unfold roundQuotient
  dsimp only
  generalize num / den = q at *
  generalize num % den = r at *
  -- the quotient rounds to its whole part or to the integer after it
  have hle : q ≤ k := by
    by_contra hlt
    have := Nat.mul_le_mul_right den (Nat.succ_le_of_lt (Nat.lt_of_not_le hlt))
    rw [Nat.succ_mul] at this
    omega
  have hge : k ≤ q + 1 := by
    by_contra hlt
    have := Nat.mul_le_mul_right den (Nat.succ_le_of_lt (Nat.lt_of_not_le hlt))
    rw [Nat.succ_mul, Nat.succ_mul] at this
    omega
  obtain rfl | rfl : k = q ∨ k = q + 1 := by omega
  · split_ifs <;> omega
  · rw [Nat.succ_mul q] at hlow hhigh hstrict
    split_ifs <;> omega

/-- The same for a quotient in units of a power of two. -/
theorem roundQuotient_scaled {num den k : Nat} (hden : 0 < den) (e : ℤ)
    (hnear : |(num / den : ℝ) / 2 ^ e - k| ≤ 1 / 2)
    (hodd : k % 2 = 1 → |(num / den : ℝ) / 2 ^ e - k| < 1 / 2) :
    roundQuotient (num * Nat.pow 2 (-e).toNat) (den * Nat.pow 2 e.toNat) = k := by
  have hunit : 0 < den * Nat.pow 2 e.toNat := Nat.mul_pos hden (Nat.pow_pos Nat.two_pos)
  apply roundQuotient_eq hunit
  · rwa [scaled_quotient]
  · rwa [scaled_quotient]

/-- What a quotient rounds to is no further away than one half. -/
theorem abs_roundQuotient_sub_le {num den : Nat} (hden : 0 < den) :
    |(num / den : ℝ) - roundQuotient num den| ≤ 1 / 2 := by
  have hden' : (0 : ℝ) < den := by exact_mod_cast hden
  have hdivision := Nat.div_add_mod' num den
  have hremainder := Nat.mod_lt num hden
  have hbounds : 2 * (roundQuotient num den * den) ≤ 2 * num + den ∧
      2 * num ≤ 2 * (roundQuotient num den * den) + den := by
    unfold roundQuotient
    dsimp only
    generalize num / den = q at *
    generalize num % den = r at *
    split_ifs <;> simp only [Nat.succ_mul] <;> omega
  obtain ⟨hlow, hhigh⟩ := hbounds
  rify at hlow hhigh
  rw [abs_le]
  constructor
  · rw [neg_le_sub_iff_le_add, ← sub_le_iff_le_add, le_div_iff₀ hden']
    linarith
  · rw [sub_le_iff_le_add, div_le_iff₀ hden']
    linarith

/-- A positive quotient is at least the power of two of its order. -/
theorem two_zpow_binaryOrder_le {num den : Nat} (hnum : 0 < num) (hden : 0 < den) :
    (2 : ℝ) ^ binaryOrder num den ≤ num / den := by
  have hden' : (0 : ℝ) < den := by exact_mod_cast hden
  unfold binaryOrder
  dsimp only
  split
  · have hnum' : (2 : ℝ) ^ Nat.log2 num ≤ num := by exact_mod_cast Nat.log2_self_le hnum.ne'
    have hhigh : (den : ℝ) < 2 ^ (Nat.log2 den + 1) := by exact_mod_cast Nat.lt_log2_self
    rw [le_div_iff₀ hden']
    calc (2 : ℝ) ^ ((Nat.log2 num : ℤ) - Nat.log2 den - 1) * den
        ≤ 2 ^ ((Nat.log2 num : ℤ) - Nat.log2 den - 1) * 2 ^ (Nat.log2 den + 1) := by gcongr
      _ = 2 ^ Nat.log2 num := by
        rw [← zpow_natCast, ← zpow_natCast, ← zpow_add₀ two_ne_zero]
        congr 1
        push_cast
        ring
      _ ≤ num := hnum'
  · next hle =>
    have hcast := (Nat.cast_le (α := ℝ)).mpr (Nat.le_of_not_lt hle)
    simp only [Nat.pow_eq] at hcast
    push_cast at hcast
    rw [zpow_eq_toNat, div_le_div_iff₀ (by positivity) hden']
    linarith

/-- The order of a quotient lies between powers of two that are known to enclose it. -/
theorem binaryOrder_eq {num den : Nat} (hden : 0 < den) {k : ℤ} (hlow : (2 : ℝ) ^ k ≤ num / den)
    (hhigh : (num / den : ℝ) < 2 ^ (k + 1)) : binaryOrder num den = k := by
  have hnum : 0 < num := by
    rcases Nat.eq_zero_or_pos num with rfl | hnum
    · have hpos : (0 : ℝ) < 2 ^ k := by positivity
      rw [Nat.cast_zero, zero_div] at hlow
      linarith
    · exact hnum
  have hupper : (num / den : ℝ) < 2 ^ (binaryOrder num den + 1) := lt_two_zpow_binaryOrder hden
  have hlower := two_zpow_binaryOrder_le hnum hden
  have hle := (zpow_lt_zpow_iff_right₀ (one_lt_two (α := ℝ))).mp (hlow.trans_lt hupper)
  have hge := (zpow_lt_zpow_iff_right₀ (one_lt_two (α := ℝ))).mp (hlower.trans_lt hhigh)
  omega

/-- The binary order of a number below a power of two is below its exponent. -/
theorem binaryOrder_lt {num den : Nat} (hnum : 0 < num) (hden : 0 < den) {k : ℤ}
    (h : (num / den : ℝ) < 2 ^ k) : binaryOrder num den < k :=
  (zpow_lt_zpow_iff_right₀ (one_lt_two (α := ℝ))).mp
    ((two_zpow_binaryOrder_le hnum hden).trans_lt h)

end Double

namespace Decimal

/-- How far the reals that round to `x` reach below it, in units of its last place. Below a power of
two the doubles are closer to each other. -/
noncomputable def reach (x : Double) : ℝ :=
  if x.mantissa = 2 ^ 52 ∧ 1 < x.biasedExponent then 1 / 4 else 1 / 2

/-- A double reaches below itself. -/
theorem reach_pos (x : Double) : 0 < reach x := by
  unfold reach
  split <;> norm_num

/-- A double reaches at most half a unit below itself. -/
theorem reach_le (x : Double) : reach x ≤ 1 / 2 := by
  unfold reach
  split <;> norm_num

/-- The real rounds to the magnitude of `x`: in units of the last place of `x`, it lies between the
points halfway to the neighbours, and such a point itself belongs to the even neighbour. -/
def Rounds (x : Double) (v : ℝ) : Prop :=
  (x.mantissa - reach x ≤ v / 2 ^ x.exponent ∧ v / 2 ^ x.exponent ≤ x.mantissa + 1 / 2) ∧
    (x.mantissa % 2 = 1 →
      x.mantissa - reach x < v / 2 ^ x.exponent ∧ v / 2 ^ x.exponent < x.mantissa + 1 / 2)

/-- What is nearer than all of these points rounds to `x`. -/
theorem rounds_of_near {x : Double} {v : ℝ} (h : |v / 2 ^ x.exponent - x.mantissa| < reach x) :
    Rounds x v := by
  have hreach := reach_le x
  rw [abs_lt] at h
  obtain ⟨hlow, hhigh⟩ := h
  refine ⟨⟨?_, ?_⟩, fun _ => ⟨?_, ?_⟩⟩ <;> linarith

namespace Rounds

variable {x : Double} {v : ℝ}

/-- What rounds to a double is less than a unit above it. -/
theorem lt_add_one (h : Rounds x v) : v / 2 ^ x.exponent < x.mantissa + 1 := by
  linarith [h.1.2]

/-- What zero rounds to has no mantissa. -/
theorem mantissa_eq_zero (h : Rounds x 0) : x.mantissa = 0 := by
  have hlow := h.1.1
  rw [zero_div] at hlow
  have hlt : (x.mantissa : ℝ) < 1 := by linarith [reach_le x]
  exact Nat.lt_one_iff.mp (by exact_mod_cast hlt)

/-- What rounds to a double lies below the next power of two. -/
theorem lt_two_zpow (h : Rounds x v) : v < 2 ^ (x.exponent + 53) := by
  have hunit : (0 : ℝ) < 2 ^ x.exponent := by positivity
  have hmantissa : (x.mantissa : ℝ) + 1 ≤ 2 ^ 53 := by exact_mod_cast x.mantissa_lt
  rw [add_comm, zpow_add₀ two_ne_zero, ← div_lt_iff₀ hunit]
  exact_mod_cast h.lt_add_one.trans_le hmantissa

/-- What rounds to `x` and has a smaller order lies a quarter of a unit below a power of two. -/
theorem of_lt (h : Rounds x v) (hnormal : -1074 < x.exponent)
    (hbelow : v / 2 ^ x.exponent < 2 ^ 52) :
    x.mantissa = 2 ^ 52 ∧ 2 ^ 52 - 1 / 4 ≤ v / 2 ^ x.exponent := by
  have hlow := h.1.1
  have hmantissa : x.mantissa = 2 ^ 52 := by
    have hle := x.le_mantissa hnormal
    have hlt : (x.mantissa : ℝ) < 2 ^ 52 + 1 := by linarith [reach_le x]
    have hlt' : x.mantissa < 2 ^ 52 + 1 := by exact_mod_cast hlt
    omega
  have hbiased : 1 < x.biasedExponent := by
    unfold Double.exponent at hnormal
    split at hnormal <;> omega
  rw [reach, if_pos ⟨hmantissa, hbiased⟩, hmantissa, Nat.cast_pow, Nat.cast_ofNat] at hlow
  exact ⟨hmantissa, hlow⟩

end Rounds

/-- A double is rounded to itself. -/
theorem rounds_magnitude (x : Double) : Rounds x x.magnitude := by
  have hunit : (0 : ℝ) < 2 ^ x.exponent := by positivity
  apply rounds_of_near
  rw [Double.magnitude, mul_div_cancel_right₀ _ hunit.ne', sub_self, abs_zero]
  exact reach_pos x

/-- The lower end of what rounds to `x`, in quarters of a unit. -/
def lowest (x : Double) : Nat :=
  if x.mantissa = Nat.pow 2 52 ∧ 1 < x.biasedExponent then 4 * x.mantissa - 1
  else 4 * x.mantissa - 2

/-- The least number that is rounded to a double, in quarters of a unit. -/
theorem cast_lowest {x : Double} (hpos : 0 < x.mantissa) :
    (lowest x : ℝ) = 4 * (x.mantissa - reach x) := by
  unfold lowest reach
  rw [Nat.pow_eq]
  split
  · rw [Nat.cast_sub (by omega)]
    push_cast
    ring
  · rw [Nat.cast_sub (by omega)]
    push_cast
    ring

/-- There is nothing below zero, where the lower end is cut off. -/
theorem lowest_le_iff (x : Double) {w : ℝ} (hw : 0 ≤ w) :
    (lowest x : ℝ) ≤ 4 * w ↔ x.mantissa - reach x ≤ w := by
  rcases Nat.eq_zero_or_pos x.mantissa with hzero | hpos
  · have hlowest : lowest x = 0 := by simp [lowest, hzero]
    have hreach := reach_pos x
    rw [hlowest, hzero, Nat.cast_zero]
    constructor <;> intro <;> linarith
  · rw [cast_lowest hpos, mul_le_mul_iff_right₀ four_pos]

/-- A quotient is read back as a double exactly if it rounds to it. -/
theorem readsBack_iff {x : Double} {num den : Nat} (hden : 0 < den) :
    readsBack x num den = true ↔ Rounds x (num / den) := by
  have hnonneg : 0 ≤ (num / den : ℝ) / 2 ^ x.exponent := by positivity
  have hquarters : (num / den : ℝ) / 2 ^ (x.exponent - 2) = 4 * (num / den / 2 ^ x.exponent) := by
    rw [zpow_sub₀ two_ne_zero]
    field_simp
    norm_num
  have hhighest : ((4 * x.mantissa + 2 : ℕ) : ℝ) = 4 * (x.mantissa + 1 / 2) := by
    push_cast
    ring
  unfold readsBack Rounds
  dsimp only
  rw [← lowest]
  by_cases heven : x.mantissa % 2 = 0
  · have hodd : ¬ x.mantissa % 2 = 1 := by omega
    rw [if_pos heven, Bool.and_eq_true, decide_eq_true_iff, decide_eq_true_iff,
      Double.scaled_le_iff hden, Double.le_scaled_iff hden, hquarters, hhighest,
      lowest_le_iff x hnonneg, mul_le_mul_iff_right₀ four_pos]
    simp only [hodd, false_implies, and_true]
  · have hodd : x.mantissa % 2 = 1 := by omega
    rw [if_neg heven, Bool.and_eq_true, decide_eq_true_iff, decide_eq_true_iff,
      Double.scaled_lt_iff hden, Double.lt_scaled_iff hden, hquarters, hhighest,
      cast_lowest (by omega), mul_lt_mul_iff_right₀ four_pos, mul_lt_mul_iff_right₀ four_pos]
    constructor
    · rintro ⟨h, h'⟩
      exact ⟨⟨h.le, h'.le⟩, fun _ => ⟨h, h'⟩⟩
    · rintro ⟨-, h⟩
      exact h hodd

/-- A quotient that is at least the power of two of the order of `x`, or that has the least
exponent, is rounded to the exponent and the mantissa of `x`. -/
theorem nearest_of_rounds_of_le {x : Double} (hfinite : x.isFinite = true) {num den : Nat}
    (hnum : 0 < num) (hden : 0 < den) (h : Rounds x (num / den))
    (hle : x.exponent = -1074 ∨ 2 ^ 52 ≤ (num / den : ℝ) / 2 ^ x.exponent) :
    Double.nearest x.isNegative num den = x := by
  have hunit : (0 : ℝ) < 2 ^ x.exponent := by positivity
  have hreach := reach_le x
  have horder : max (Double.binaryOrder num den - 52) (-1074) = x.exponent := by
    rcases hle with hleast | hlower
    · have horder := Double.binaryOrder_lt hnum hden h.lt_two_zpow
      omega
    · have hexponent := x.le_exponent
      rw [Double.binaryOrder_eq hden (k := x.exponent + 52)]
      · omega
      · rw [add_comm, zpow_add₀ two_ne_zero, ← le_div_iff₀ hunit]
        exact_mod_cast hlower
      · rw [add_assoc]
        exact h.lt_two_zpow
  have hround : Double.roundQuotient (num * Nat.pow 2 (-x.exponent).toNat)
      (den * Nat.pow 2 x.exponent.toNat) = x.mantissa := by
    obtain ⟨⟨hlow, hhigh⟩, hodd⟩ := h
    apply Double.roundQuotient_scaled hden
    · rw [abs_le]
      constructor <;> linarith
    · intro hmod
      obtain ⟨hlow, hhigh⟩ := hodd hmod
      rw [abs_lt]
      constructor <;> linarith
  have hcarry : x.mantissa ≠ Nat.pow 2 53 := x.mantissa_lt.ne
  rw [Double.nearest, if_neg hnum.ne']
  dsimp only
  rw [horder, hround, if_neg hcarry, Double.ofParts_parts hfinite]

/-- A quotient below the power of two that `x` is has a smaller order, and its mantissa is carried
over. -/
theorem nearest_of_rounds_of_lt {x : Double} (hfinite : x.isFinite = true) {num den : Nat}
    (hnum : 0 < num) (hden : 0 < den) (h : Rounds x (num / den)) (hnormal : -1074 < x.exponent)
    (hlt : (num / den : ℝ) / 2 ^ x.exponent < 2 ^ 52) :
    Double.nearest x.isNegative num den = x := by
  have hunit : (0 : ℝ) < 2 ^ x.exponent := by positivity
  obtain ⟨hmantissa, hnear⟩ := h.of_lt hnormal hlt
  have horder : max (Double.binaryOrder num den - 52) (-1074) = x.exponent - 1 := by
    rw [Double.binaryOrder_eq hden (k := x.exponent + 51)]
    · omega
    · rw [add_comm, zpow_add₀ two_ne_zero, ← le_div_iff₀ hunit]
      norm_num
      linarith
    · rw [show x.exponent + 51 + 1 = 52 + x.exponent by ring, zpow_add₀ two_ne_zero,
        ← div_lt_iff₀ hunit]
      exact_mod_cast hlt
  have hround : Double.roundQuotient (num * Nat.pow 2 (-(x.exponent - 1)).toNat)
      (den * Nat.pow 2 (x.exponent - 1).toNat) = Nat.pow 2 53 := by
    have hdouble : (num / den : ℝ) / 2 ^ (x.exponent - 1) = 2 * (num / den / 2 ^ x.exponent) := by
      rw [zpow_sub₀ two_ne_zero]
      field_simp
    apply Double.roundQuotient_scaled hden
    · rw [hdouble, abs_le, Nat.pow_eq]
      push_cast
      constructor <;> linarith
    · intro hmod
      cases hmod
  rw [Double.nearest, if_neg hnum.ne']
  dsimp only
  rw [horder, hround, if_pos rfl, sub_add_cancel]
  conv_rhs => rw [← Double.ofParts_parts hfinite, hmantissa]
  rfl

/-- `nearest` gives the double to which a quotient rounds. -/
theorem nearest_of_rounds {x : Double} (hfinite : x.isFinite = true) {num den : Nat}
    (hden : 0 < den) (h : Rounds x (num / den)) :
    Double.nearest x.isNegative num den = x := by
  rcases Nat.eq_zero_or_pos num with rfl | hnum
  · rw [Nat.cast_zero, zero_div] at h
    rw [Double.nearest, if_pos rfl]
    conv_rhs => rw [← Double.ofParts_parts hfinite, h.mantissa_eq_zero]
    rfl
  · rcases x.le_exponent.eq_or_lt with hleast | hnormal
    · exact nearest_of_rounds_of_le hfinite hnum hden h (.inl hleast.symm)
    · rcases le_or_gt (2 ^ 52) ((num / den : ℝ) / 2 ^ x.exponent) with hle | hlt
      · exact nearest_of_rounds_of_le hfinite hnum hden h (.inr hle)
      · exact nearest_of_rounds_of_lt hfinite hnum hden h hnormal hlt

/-- However the magnitude of a double is written as a quotient, it rounds to the double. -/
theorem nearest_magnitude {x : Double} (hfinite : x.isFinite = true) {num den : Nat}
    (hden : 0 < den) (h : (num / den : ℝ) = x.magnitude) :
    Double.nearest x.isNegative num den = x :=
  nearest_of_rounds hfinite hden (h ▸ rounds_magnitude x)

end Decimal

namespace Double

/-- An integral double is finite, and its magnitude is a natural number. -/
theorem of_toInt? {x : Double} {n : Int} (h : x.toInt? = some n) : x.isFinite = true ∧
    ∃ k : Nat, (k : ℝ) = x.magnitude ∧ n = if x.isNegative then -(k : Int) else k := by
  unfold toInt? at h
  split at h
  · cases h
  · next hint =>
    simp only [Bool.or_eq_true, Bool.not_eq_true', bne_iff_ne, not_or, Bool.not_eq_false,
      not_not] at hint
    cases h
    refine ⟨hint.1, x.numerator / x.denominator, ?_, rfl⟩
    have hne : (x.denominator : ℝ) ≠ 0 := by exact_mod_cast x.denominator_pos.ne'
    rw [Nat.cast_div (Nat.dvd_of_mod_eq_zero hint.2) hne, numerator_div_denominator]

/-- An integral double denotes its integer. -/
theorem toReal_of_toInt? {x : Double} {n : Int} (h : x.toInt? = some n) : x.toReal = n := by
  obtain ⟨hfinite, k, hk, rfl⟩ := of_toInt? h
  rw [toReal, if_pos hfinite, numerator_div_denominator, ← hk]
  split <;> simp

/-- A finite double that equals an integer is recognized as one. -/
theorem isSome_toInt? {x : Double} {n : ℤ} (hfinite : x.isFinite = true)
    (hn : x.toReal = n) : x.toInt?.isSome = true := by
  have hden : (x.denominator : ℝ) ≠ 0 := by exact_mod_cast x.denominator_pos.ne'
  have hquotient : (x.numerator / x.denominator : ℝ) = n.natAbs := by
    have hnonneg : (0 : ℝ) ≤ x.numerator / x.denominator := by positivity
    rw [toReal, if_pos hfinite] at hn
    rw [Nat.cast_natAbs, Int.cast_abs, ← hn]
    split <;> simp [abs_of_nonneg hnonneg]
  have hproduct : x.numerator = n.natAbs * x.denominator := by
    rw [div_eq_iff hden] at hquotient
    exact_mod_cast hquotient
  have hmod : x.numerator % x.denominator = 0 := by
    rw [hproduct, Nat.mul_mod_left]
  simp [toInt?, hfinite, hmod]

/-- An integral double is the double nearest to its integer, apart from the sign of zero. -/
theorem ofInt_of_toInt? {x : Double} {n : Int} (h : x.toInt? = some n) :
    ofInt n = if x.isZero then zero else x := by
  obtain ⟨hfinite, k, hk, rfl⟩ := of_toInt? h
  by_cases hzero : x.isZero = true
  · have hk' : k = 0 := by
      rw [magnitude, mantissa_eq_zero hzero, Nat.cast_zero, zero_mul] at hk
      exact_mod_cast hk
    rw [if_pos hzero, hk']
    cases x.isNegative <;> decide
  · have hcast : (0 : ℤ) < k := by
      have hpos : (0 : ℝ) < k := hk ▸ magnitude_pos hzero
      exact_mod_cast hpos
    have hmagnitude : (k / (1 : ℕ) : ℝ) = x.magnitude := by rw [hk, Nat.cast_one, div_one]
    have hnear := Decimal.nearest_magnitude hfinite Nat.one_pos hmagnitude
    rw [if_neg hzero, ofInt, ofQuotient]
    refine Eq.trans ?_ hnear
    by_cases hsign : x.isNegative = true
    · have hbelow : decide (-(k : ℤ) < 0) = true := decide_eq_true (by omega)
      rw [if_pos hsign, hsign, hbelow, Int.natAbs_neg]
      rfl
    · have habove : decide ((k : ℤ) < 0) = false := decide_eq_false (by omega)
      rw [if_neg hsign, Bool.eq_false_iff.mpr hsign, habove]
      rfl

end Double

end BayesGraph
