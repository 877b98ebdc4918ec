import BayesGraph.Proofs.Rounding

/-!
# Decimal digits of doubles

The digits that are chosen for a double make up a number that stays close to it. A rounding to
`count` digits is no further away than half a unit of the last digit, so 17 digits always round back
to the double; and fewer digits are chosen only if they do. Hence the shortest digits round to the
double that they were chosen for (`rounds_shortest`).
-/

set_option autoImplicit false

namespace BayesGraph.Decimal

/-- The first digit is not zero, and there are as many digits as `count` says. -/
def Proper (d : Decimal) : Prop :=
  0 < d.count ∧ 10 ^ (d.count - 1) ≤ d.digits ∧ d.digits < 10 ^ d.count

/-- The number that a decimal stands for. -/
noncomputable def value (d : Decimal) : ℝ := d.digits * 10 ^ (d.exponent + 1 - d.count)

/-- The digits of a natural number are as many as the powers of ten around it say. -/
theorem length_toDigits_eq {n k : Nat} (hk : 0 < k) (hlow : 10 ^ (k - 1) ≤ n) (hhigh : n < 10 ^ k) :
    (Nat.toDigits 10 n).length = k := by
  refine le_antisymm ((Nat.length_toDigits_le_iff (by decide) hk).mpr hhigh) ?_
  by_contra hlt
  rcases Nat.eq_zero_or_pos (k - 1) with hone | hpos
  · have hlength := Nat.length_toDigits_pos (b := 10) (n := n)
    omega
  · exact absurd ((Nat.length_toDigits_le_iff (by decide) hpos).mp (by omega)) (not_lt.mpr hlow)

/-- A positive number lies between two powers of ten, by the count of its digits. -/
theorem toDigits_bounds {n : Nat} (hn : 0 < n) :
    10 ^ ((Nat.toDigits 10 n).length - 1) ≤ n ∧ n < 10 ^ (Nat.toDigits 10 n).length := by
  refine ⟨?_, (Nat.length_toDigits_le_iff (by decide) Nat.length_toDigits_pos).mp le_rfl⟩
  by_contra hlt
  rcases Nat.eq_zero_or_pos ((Nat.toDigits 10 n).length - 1) with hone | hpos
  · rw [hone, pow_zero] at hlt
    omega
  · have hle := (Nat.length_toDigits_le_iff (by decide) hpos).mpr (not_le.mp hlt)
    omega

/-- A number in units of a power of ten. -/
theorem quotient_in_units (num den : Nat) (e : ℤ) :
    ((inUnits num den e).1 / (inUnits num den e).2 : ℝ) = (num / den : ℝ) / 10 ^ e := by
  unfold inUnits
  rw [Double.zpow_eq_toNat]
  simp only [Nat.pow_eq]
  push_cast
  rw [div_div_div_eq]

/-- A number times a power of ten, as a quotient of natural numbers. -/
theorem scaled_quotient (digits : Nat) (e : ℤ) :
    ((digits * Nat.pow 10 e.toNat : ℕ) / (Nat.pow 10 (-e).toNat : ℕ) : ℝ) = digits * 10 ^ e := by
  rw [Double.zpow_eq_toNat]
  simp only [Nat.pow_eq]
  push_cast
  ring

/-- The quotient of integers that a decimal is, is its value. -/
theorem quotient_eq_value (d : Decimal) : (d.quotient.1 / d.quotient.2 : ℝ) = d.value :=
  scaled_quotient d.digits (d.exponent + 1 - d.count)

/-- The quotient of a decimal has a positive denominator. -/
theorem quotient_pos (d : Decimal) : 0 < d.quotient.2 := Nat.pow_pos (by decide)

/-- The first digit of a proper decimal stands at its exponent. -/
theorem Proper.value_bounds {d : Decimal} (h : d.Proper) :
    (10 : ℝ) ^ d.exponent ≤ d.value ∧ d.value < 10 ^ (d.exponent + 1) := by
  obtain ⟨hcount, hlow, hhigh⟩ := h
  have hunit : (0 : ℝ) < 10 ^ (d.exponent + 1 - d.count) := by positivity
  have hlow' : (10 : ℝ) ^ (d.count - 1) ≤ d.digits := by exact_mod_cast hlow
  have hhigh' : (d.digits : ℝ) < 10 ^ d.count := by exact_mod_cast hhigh
  unfold value
  constructor
  · calc (10 : ℝ) ^ d.exponent = 10 ^ (d.count - 1) * 10 ^ (d.exponent + 1 - d.count) := by
          rw [← zpow_natCast, ← zpow_add₀ (by norm_num)]
          congr 1
          omega
      _ ≤ d.digits * 10 ^ (d.exponent + 1 - d.count) := by gcongr
  · calc d.digits * (10 : ℝ) ^ (d.exponent + 1 - d.count)
        < 10 ^ d.count * 10 ^ (d.exponent + 1 - d.count) := by gcongr
      _ = 10 ^ (d.exponent + 1) := by
          rw [← zpow_natCast, ← zpow_add₀ (by norm_num)]
          congr 1
          omega

/-! ## The leading digit -/

section Order

variable {num den : Nat}

/-- The leading digit of a positive number that is not extremely small stands at its order. -/
theorem order_bounds (hden : 0 < den) (hsmall : (10 : ℝ) ^ (-400 : ℤ) ≤ num / den) :
    (10 : ℝ) ^ order num den ≤ num / den ∧ (num / den : ℝ) < 10 ^ (order num den + 1) := by
  have hden' : (0 : ℝ) < den := by exact_mod_cast hden
  unfold order
  split
  · next hle =>
    have hpos : 0 < num / den := Nat.div_pos hle hden
    obtain ⟨hlow, hhigh⟩ := toDigits_bounds hpos
    obtain ⟨k, hk⟩ : ∃ k, (Nat.toDigits 10 (num / den)).length = k + 1 :=
      ⟨_, (Nat.succ_pred_eq_of_pos Nat.length_toDigits_pos).symm⟩
    rw [hk] at hlow hhigh
    have hlow' : 10 ^ k * den ≤ num := (Nat.le_div_iff_mul_le hden).mp hlow
    have hhigh' : num < 10 ^ (k + 1) * den := (Nat.div_lt_iff_lt_mul hden).mp hhigh
    have hexponent : ((k + 1 : ℕ) : ℤ) - 1 = k := by omega
    rw [hk, hexponent, ← Nat.cast_succ, zpow_natCast, zpow_natCast, le_div_iff₀ hden',
      div_lt_iff₀ hden']
    exact ⟨by exact_mod_cast hlow', by exact_mod_cast hhigh'⟩
  · next hlt =>
    cases hfind : (List.range 400).find? fun j => decide (den ≤ num * Nat.pow 10 (j + 1)) with
    | none =>
      have hscale (k : ℕ) (h : (10 : ℝ) ^ (-k : ℤ) ≤ num / den) : den ≤ num * Nat.pow 10 k := by
        rw [zpow_neg, zpow_natCast, le_div_iff₀ hden', inv_mul_le_iff₀ (by positivity),
          mul_comm] at h
        exact_mod_cast h
      -- A ratio that is not too small is found among the first four hundred places.
      have hlast := List.find?_eq_none.mp hfind 399 (by decide)
      exact absurd (decide_eq_true (hscale (399 + 1) hsmall)) hlast
    | some j =>
      obtain ⟨hlow, -, hfirst⟩ := List.find?_range_eq_some.mp hfind
      have hlow' : den ≤ num * 10 ^ (j + 1) := of_decide_eq_true hlow
      have hhigh : num * 10 ^ j < den := by
        cases j with
        | zero => omega
        | succ i =>
          have hbefore := hfirst i i.lt_succ_self
          simpa only [Nat.pow_eq, Bool.not_eq_true', decide_eq_false_iff_not, not_le] using hbefore
      have hexponent : -((j : ℤ) + 1) + 1 = -(j : ℤ) := by ring
      have hlowReal : (den : ℝ) ≤ num * 10 ^ (j + 1) := by exact_mod_cast hlow'
      have hhighReal : (num : ℝ) * 10 ^ j < den := by exact_mod_cast hhigh
      dsimp only
      rw [hexponent, zpow_neg, zpow_neg, ← Nat.cast_succ, zpow_natCast, zpow_natCast]
      constructor
      · rw [le_div_iff₀ hden', inv_mul_le_iff₀ (by positivity), mul_comm]
        exact hlowReal
      · rw [div_lt_iff₀ hden', lt_inv_mul_iff₀ (by positivity), mul_comm]
        exact hhighReal

/-- A number in units of the last of its `count` leading digits. -/
theorem units_bounds (hden : 0 < den) (hsmall : (10 : ℝ) ^ (-400 : ℤ) ≤ num / den) {count : Nat}
    (hcount : 0 < count) :
    (10 : ℝ) ^ (count - 1) ≤ (num / den : ℝ) / 10 ^ (order num den + 1 - count) ∧
      (num / den : ℝ) / 10 ^ (order num den + 1 - count) < 10 ^ count := by
  obtain ⟨hlow, hhigh⟩ := order_bounds hden hsmall
  have hunit : (0 : ℝ) < 10 ^ (order num den + 1 - count) := by positivity
  have hfirst : ((count - 1 : ℕ) : ℤ) + (order num den + 1 - count) = order num den := by omega
  constructor
  · rw [le_div_iff₀ hunit, ← zpow_natCast, ← zpow_add₀ (by norm_num), hfirst]
    exact hlow
  · rw [div_lt_iff₀ hunit, ← zpow_natCast, ← zpow_add₀ (by norm_num), add_sub_cancel]
    exact hhigh

end Order

/-! ## Digits of a double -/

section Digits

variable {x : Double}

/-- The least positive double is not extremely small. -/
theorem not_extremely_small (hzero : ¬ x.isZero = true) :
    (10 : ℝ) ^ (-400 : ℤ) ≤ x.numerator / x.denominator := by
  have hmantissa : (1 : ℝ) ≤ x.mantissa := by exact_mod_cast Double.mantissa_pos hzero
  rw [Double.numerator_div_denominator]
  calc (10 : ℝ) ^ (-400 : ℤ) ≤ 2 ^ (-1074 : ℤ) := by
        rw [zpow_neg, zpow_neg]
        refine inv_anti₀ (by positivity) ?_
        calc (2 : ℝ) ^ (1074 : ℤ) = (2 ^ (3 : ℤ)) ^ (358 : ℤ) := by rw [← zpow_mul]; norm_num
          _ ≤ 10 ^ (358 : ℤ) := zpow_le_zpow_left₀ (by norm_num) (by positivity) (by norm_num)
          _ ≤ 10 ^ (400 : ℤ) := zpow_le_zpow_right₀ (by norm_num) (by norm_num)
    _ ≤ 2 ^ x.exponent := zpow_le_zpow_right₀ one_le_two x.le_exponent
    _ ≤ x.mantissa * 2 ^ x.exponent := le_mul_of_one_le_left (by positivity) hmantissa

/-- A double in units of the last of its `count` leading digits. -/
theorem inUnits_bounds (hzero : ¬ x.isZero = true) {count : Nat} (hcount : 0 < count) {a b : Nat}
    (hunits : inUnits x.numerator x.denominator (order x.numerator x.denominator + 1 - count) =
      (a, b)) :
    0 < b ∧ (10 : ℝ) ^ (count - 1) ≤ a / b ∧ (a / b : ℝ) < 10 ^ count ∧
      (a / b : ℝ) * 10 ^ (order x.numerator x.denominator + 1 - count) = x.magnitude := by
  obtain ⟨hlow, hhigh⟩ := units_bounds x.denominator_pos (not_extremely_small hzero) hcount
  have hquotient := quotient_in_units x.numerator x.denominator
    (order x.numerator x.denominator + 1 - count)
  rw [hunits] at hquotient
  dsimp only at hquotient
  rw [← hquotient] at hlow hhigh
  refine ⟨?_, hlow, hhigh, ?_⟩
  · cases hunits
    exact Nat.mul_pos x.denominator_pos (Nat.pow_pos (by decide))
  · rw [hquotient, Double.numerator_div_denominator, div_mul_cancel₀]
    positivity

/-- A proper decimal whose first digit stands at a given exponent, or at the next one after a
carry. -/
def StartsAt (d : Decimal) (e : ℤ) : Prop := d.Proper ∧ (d.exponent = e ∨ d.exponent = e + 1)

/-- A digit string that is carried over keeps its value. -/
theorem startsAt_of_digits {k count : Nat} (e : ℤ) (hcount : 0 < count) (hlow : 10 ^ (count - 1) ≤ k)
    (hhigh : k ≤ 10 ^ count) {d : Decimal}
    (hd : (if k = Nat.pow 10 count then ⟨Nat.pow 10 (count - 1), count, e + 1⟩ else ⟨k, count, e⟩) =
      d) :
    d.StartsAt e ∧ d.value = k * 10 ^ (e + 1 - count) := by
  subst hd
  have hsucc : 10 ^ (count - 1) * 10 = 10 ^ count := by
    rw [← pow_succ, Nat.sub_add_cancel hcount]
  have hpos : 0 < 10 ^ (count - 1) := Nat.pow_pos (by decide)
  split
  · next hcarry =>
    refine ⟨⟨⟨hcount, le_refl _, ?_⟩, Or.inr rfl⟩, ?_⟩
    · show 10 ^ (count - 1) < 10 ^ count
      omega
    · rw [hcarry]
      unfold value
      simp only [Nat.pow_eq]
      have hshift : (e + 1 + 1 - count : ℤ) = 1 + (e + 1 - count) := by ring
      rw [hshift, zpow_add₀ (by norm_num), ← mul_assoc, zpow_one]
      exact_mod_cast congrArg (fun n : ℕ => (n : ℝ) * 10 ^ (e + 1 - count)) hsucc
  · next hcarry =>
    exact ⟨⟨⟨hcount, hlow, lt_of_le_of_ne hhigh hcarry⟩, Or.inl rfl⟩, rfl⟩

/-- A rounding keeps the number of digits, and it is no further away than half a unit of the last
digit. -/
theorem rounded_spec (hzero : ¬ x.isZero = true) {count : Nat} (hcount : 0 < count) :
    (rounded x.numerator x.denominator count).StartsAt (order x.numerator x.denominator) ∧
      |x.magnitude - (rounded x.numerator x.denominator count).value| ≤
        1 / 2 * 10 ^ (order x.numerator x.denominator + 1 - count) := by
  unfold rounded
  dsimp only
  generalize hunits : inUnits x.numerator x.denominator
    (order x.numerator x.denominator + 1 - count) = units
  obtain ⟨a, b⟩ := units
  obtain ⟨hb, hlow, hhigh, hvalue⟩ := inUnits_bounds hzero hcount hunits
  have hnear : |(a / b : ℝ) - Double.roundQuotient a b| ≤ 1 / 2 :=
    Double.abs_roundQuotient_sub_le hb
  have hnear' := abs_le.mp hnear
  have hdigitsLow : 10 ^ (count - 1) ≤ Double.roundQuotient a b := by
    have hlt : ((10 ^ (count - 1) : ℕ) : ℝ) < Double.roundQuotient a b + 1 := by
      push_cast
      linarith
    exact Nat.lt_succ_iff.mp (by exact_mod_cast hlt)
  have hdigitsHigh : Double.roundQuotient a b ≤ 10 ^ count := by
    have hlt : (Double.roundQuotient a b : ℝ) < ((10 ^ count + 1 : ℕ) : ℝ) := by
      push_cast
      linarith
    exact Nat.lt_succ_iff.mp (by exact_mod_cast hlt)
  obtain ⟨hstarts, hd⟩ :=
    startsAt_of_digits (order x.numerator x.denominator) hcount hdigitsLow hdigitsHigh rfl
  refine ⟨hstarts, ?_⟩
  have hunit : (0 : ℝ) < 10 ^ (order x.numerator x.denominator + 1 - count) := by positivity
  rw [hd, ← hvalue, ← sub_mul, abs_mul, abs_of_pos hunit]
  exact mul_le_mul_of_nonneg_right hnear hunit.le

/-- Both neighbours on a grid of digits have so many digits. -/
theorem neighbours_startsAt (hzero : ¬ x.isZero = true) {count : Nat} (hcount : 0 < count) :
    (neighbours x count).1.StartsAt (order x.numerator x.denominator) ∧
      (neighbours x count).2.StartsAt (order x.numerator x.denominator) := by
  unfold neighbours
  dsimp only
  generalize hunits : inUnits x.numerator x.denominator
    (order x.numerator x.denominator + 1 - count) = units
  obtain ⟨a, b⟩ := units
  obtain ⟨hb, hlow, hhigh, -⟩ := inUnits_bounds hzero hcount hunits
  have hb' : (0 : ℝ) < b := by exact_mod_cast hb
  rw [le_div_iff₀ hb'] at hlow
  rw [div_lt_iff₀ hb'] at hhigh
  have hdigitsLow : 10 ^ (count - 1) ≤ a / b :=
    (Nat.le_div_iff_mul_le hb).mpr (by exact_mod_cast hlow)
  have hdigitsHigh : a / b < 10 ^ count :=
    (Nat.div_lt_iff_lt_mul hb).mpr (by exact_mod_cast hhigh)
  refine ⟨⟨⟨hcount, hdigitsLow, hdigitsHigh⟩, Or.inl rfl⟩, ?_⟩
  exact (startsAt_of_digits (order x.numerator x.denominator) hcount
    (Nat.le_succ_of_le hdigitsLow) hdigitsHigh rfl).1

/-- Seventeen digits are enough to tell a double from its neighbours. -/
theorem rounds_rounded (hzero : ¬ x.isZero = true) :
    Rounds x (rounded x.numerator x.denominator 17).value := by
  obtain ⟨-, hnear⟩ := rounded_spec hzero (show 0 < 17 by decide)
  obtain ⟨horder, -⟩ := order_bounds x.denominator_pos (not_extremely_small hzero)
  rw [Double.numerator_div_denominator] at horder
  have hunit : (0 : ℝ) < 2 ^ x.exponent := by positivity
  have hmantissa : (x.mantissa : ℝ) < 2 ^ 53 := by exact_mod_cast x.mantissa_lt
  have hreach : (x.mantissa : ℝ) / (2 * 10 ^ 16) < reach x := by
    unfold reach
    split
    · next hnarrow =>
      rw [hnarrow.1]
      norm_num
    · rw [div_lt_iff₀ (by norm_num)]
      linarith
  apply rounds_of_near
  have hshift : (order x.numerator x.denominator + 1 - (17 : ℕ) : ℤ) =
      order x.numerator x.denominator - 16 := by
    push_cast
    ring
  rw [hshift, zpow_sub₀ (by norm_num)] at hnear
  have hscale : (rounded x.numerator x.denominator 17).value / 2 ^ x.exponent - x.mantissa =
      -(x.magnitude - (rounded x.numerator x.denominator 17).value) / 2 ^ x.exponent := by
    rw [Double.magnitude]
    field_simp
    ring
  rw [hscale, abs_div, abs_neg, abs_of_pos hunit, div_lt_iff₀ hunit]
  calc |x.magnitude - (rounded x.numerator x.denominator 17).value|
      ≤ 1 / 2 * (10 ^ order x.numerator x.denominator / 10 ^ (16 : ℤ)) := hnear
    _ ≤ 1 / 2 * (x.magnitude / 10 ^ (16 : ℤ)) := by gcongr
    _ = x.mantissa / (2 * 10 ^ 16) * 2 ^ x.exponent := by
      rw [Double.magnitude]
      norm_num
      ring
    _ < reach x * 2 ^ x.exponent := by gcongr

/-- A readable decimal rounds to the double, and it is one of the two neighbours. -/
theorem rounds_of_readable? {count : Nat} {d : Decimal} (h : readable? x count = some d) :
    Rounds x d.value ∧ (d = (neighbours x count).1 ∨ d = (neighbours x count).2) := by
  have hreads (d : Decimal) (hd : readsBack x d.quotient.1 d.quotient.2 = true) :
      Rounds x d.value := by
    rw [readsBack_iff d.quotient_pos, quotient_eq_value] at hd
    exact hd
  unfold readable? at h
  dsimp only at h
  split at h
  · next hbelow habove =>
    cases h
    split
    · exact ⟨hreads _ hbelow, Or.inl rfl⟩
    · exact ⟨hreads _ habove, Or.inr rfl⟩
  · next hbelow _ =>
    cases h
    exact ⟨hreads _ hbelow, Or.inl rfl⟩
  · next _ habove =>
    cases h
    exact ⟨hreads _ habove, Or.inr rfl⟩
  · cases h

/-- The shortest digits of a double round to it. -/
theorem rounds_shortest (hzero : ¬ x.isZero = true) :
    (shortest x).StartsAt (order x.numerator x.denominator) ∧ Rounds x (shortest x).value := by
  unfold shortest
  cases hfind : (List.range 17).findSome? fun n => readable? x (n + 1) with
  | none => exact ⟨(rounded_spec hzero (by decide)).1, rounds_rounded hzero⟩
  | some d =>
    obtain ⟨n, -, hd⟩ := List.exists_of_findSome?_eq_some hfind
    obtain ⟨hrounds, hneighbour⟩ := rounds_of_readable? hd
    have hstarts := neighbours_startsAt hzero n.succ_pos
    refine ⟨?_, hrounds⟩
    rcases hneighbour with heq | heq
    · exact heq ▸ hstarts.1
    · exact heq ▸ hstarts.2

/-- The leading digit of a finite double is neither extremely small nor extremely large. -/
theorem order_range (hfinite : x.isFinite = true) (hzero : ¬ x.isZero = true) :
    -325 ≤ order x.numerator x.denominator ∧ order x.numerator x.denominator ≤ 308 := by
  obtain ⟨hlow, hhigh⟩ := order_bounds x.denominator_pos (not_extremely_small hzero)
  rw [Double.numerator_div_denominator] at hlow hhigh
  have hone : (1 : ℝ) ≤ x.mantissa := by exact_mod_cast Double.mantissa_pos hzero
  have hmantissa : (x.mantissa : ℝ) < 2 ^ (53 : ℤ) := by exact_mod_cast x.mantissa_lt
  constructor
  · have hpowers : (2 : ℝ) ^ (1074 : ℤ) ≤ 10 ^ (325 : ℤ) := by
      have hnat : 2 ^ 1074 ≤ 10 ^ 325 := by decide +kernel
      exact_mod_cast hnat
    have hsmall : (10 : ℝ) ^ (-325 : ℤ) < 10 ^ (order x.numerator x.denominator + 1) :=
      calc (10 : ℝ) ^ (-325 : ℤ) ≤ 2 ^ (-1074 : ℤ) := by
            rw [zpow_neg, zpow_neg]
            exact inv_anti₀ (by positivity) hpowers
        _ ≤ 2 ^ x.exponent := zpow_le_zpow_right₀ one_le_two x.le_exponent
        _ ≤ x.magnitude := le_mul_of_one_le_left (by positivity) hone
        _ < _ := hhigh
    have := (zpow_lt_zpow_iff_right₀ (by norm_num)).mp hsmall
    omega
  · have hpowers : (2 : ℝ) ^ (1024 : ℤ) ≤ 10 ^ (309 : ℤ) := by
      have hnat : 2 ^ 1024 ≤ 10 ^ 309 := by decide +kernel
      exact_mod_cast hnat
    have hlarge : (10 : ℝ) ^ order x.numerator x.denominator < 10 ^ (309 : ℤ) :=
      calc (10 : ℝ) ^ order x.numerator x.denominator ≤ x.magnitude := hlow
        _ < 2 ^ (53 : ℤ) * 2 ^ x.exponent := mul_lt_mul_of_pos_right hmantissa (by positivity)
        _ ≤ 2 ^ (53 : ℤ) * 2 ^ (971 : ℤ) := by
            have hle := zpow_le_zpow_right₀ (one_le_two (α := ℝ)) (Double.exponent_le hfinite)
            gcongr
        _ = 2 ^ (1024 : ℤ) := by
            rw [← zpow_add₀ two_ne_zero]
            norm_num
        _ ≤ 10 ^ (309 : ℤ) := hpowers
    have := (zpow_lt_zpow_iff_right₀ (by norm_num)).mp hlarge
    omega

/-- A decimal that starts where a double starts is within the range of doubles. -/
theorem StartsAt.value_range (hfinite : x.isFinite = true) (hzero : ¬ x.isZero = true) {d : Decimal}
    (hd : d.StartsAt (order x.numerator x.denominator)) :
    (10 : ℝ) ^ (-331 : ℤ) ≤ d.value ∧ d.value < 10 ^ (310 : ℤ) := by
  obtain ⟨hlow, hhigh⟩ := order_range hfinite hzero
  obtain ⟨hproper, hexponent⟩ := hd
  obtain ⟨hlower, hupper⟩ := hproper.value_bounds
  constructor
  · exact (zpow_le_zpow_right₀ (by norm_num) (by omega)).trans hlower
  · exact hupper.trans_le (zpow_le_zpow_right₀ (by norm_num) (by omega))

end Digits

end BayesGraph.Decimal
