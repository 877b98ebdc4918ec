import Mathlib
import BayesGraph.BoundDist
import BayesGraph.Extras
import BayesGraph.Proofs.Broadcasting
import BayesGraph.Proofs.ExtendedReals
import BayesGraph.Proofs.Table

/-!
# Distribution functions

The families that can be truncated compute the logarithm of their distribution function.
`HasDistribution` gives these functions on the whole line. A family computes its distribution
function on a domain, and in general not below (`HasDistribution.exists_routines`): the formulas do
not know that there is no mass below the support.
-/

set_option autoImplicit false

namespace BayesGraph

open MeasureTheory ProbabilityTheory

/-! ## Arithmetic on reals -/

namespace Extended

variable {x y : ℝ}

/-- An integral constant of a family is the real. -/
@[simp] theorem num_eq (n : ℤ) : (Builtin.num n : Extended) = real n := ofInt_eq n

/-- Differences of reals are those of the real numbers. -/
@[simp] theorem sub_real (x y : ℝ) : real x - real y = real (x - y) := by
  change real (x + -y) = real (x - y)
  rw [sub_eq_add_neg]

/-- Products of reals are those of the real numbers. -/
@[simp] theorem mul_real (x y : ℝ) : real x * real y = real (x * y) := rfl

/-- Quotients of reals are those of the real numbers, where the divisor is not zero. -/
theorem div_real (hy : y ≠ 0) : real x / real y = real (x / y) := if_neg hy

/-- The logarithm of a real is extended to zero and to negative numbers. -/
@[simp] theorem log_real (x : ℝ) : Scalar.log (real x) = logReal x := rfl

/-- The exponential of a real is that of the real number. -/
@[simp] theorem exp_real (x : ℝ) : Scalar.exp (real x) = real (Real.exp x) := rfl

/-- The exponential minus one is exact. -/
@[simp] theorem expMinusOne_real (x : ℝ) :
    Scalar.expMinusOne (real x) = real (Real.exp x - 1) := rfl

/-- The logarithm of one plus a real is the logarithm of the sum. -/
@[simp] theorem logOnePlus_real (x : ℝ) : Scalar.logOnePlus (real x) = logReal (1 + x) := rfl

/-- The square root of a real is that of the real number, where it is not negative. -/
theorem sqrt_real (hx : 0 ≤ x) : Scalar.sqrt (real x) = real (√x) := if_neg hx.not_gt

/-- The logarithm of a positive number is a real. -/
theorem logReal_pos (hx : 0 < x) : logReal x = real (Real.log x) := if_pos hx

/-- The logarithm of zero is the bottom. -/
@[simp] theorem logReal_zero : logReal 0 = bottom := by simp [logReal]

/-- The logarithm of a negative number is no number. -/
theorem logReal_neg (hx : x < 0) : logReal x = nan := by
  rw [logReal, if_neg hx.not_gt, if_neg hx.ne]

/-- The exponential of the bottom is zero. -/
@[simp] theorem exp_bottom : Scalar.exp bottom = real 0 := rfl

/-- The exponential undoes the logarithm, at zero too. -/
theorem exp_logReal (hx : 0 ≤ x) : Scalar.exp (logReal x) = real x := by
  rcases hx.eq_or_lt with rfl | hpos
  · rw [logReal_zero, exp_bottom]
  · rw [logReal_pos hpos, exp_real, Real.exp_log hpos]

/-- Reals are compared as real numbers. -/
@[simp] theorem le_real (x y : ℝ) : Scalar.le (real x) (real y) = decide (x ≤ y) := by
  change @decide _ _ = _
  congr

/-- The larger one of two reals is that of the real numbers. -/
theorem max_real (x y : ℝ) : Scalar.max (real x) (real y) = real (max x y) := by
  unfold Scalar.max
  simp only [isNaN_real, lt_real, decide_eq_true_eq, Bool.false_eq_true, if_false]
  rw [max_def_lt]
  split
  · rfl
  · split <;> rfl

/-- The smaller one of two reals is that of the real numbers. -/
theorem min_real (x y : ℝ) : Scalar.min (real x) (real y) = real (min x y) := by
  unfold Scalar.min
  simp only [isNaN_real, lt_real, decide_eq_true_eq, Bool.false_eq_true, if_false]
  rw [min_comm, min_def_lt]
  split
  · rfl
  · split <;> rfl

/-- The logarithm of the logistic function is the logarithm of the sigmoid. -/
theorem logLogistic_real (x : ℝ) : Scalar.logLogistic (real x) = logReal x.sigmoid := by
  rw [logReal_pos (Real.sigmoid_pos x), ← ExactReals.logLogistic_eq]
  have hone : (0 : ℝ) < 1 + Real.exp x := by positivity
  have hone' : (0 : ℝ) < 1 + Real.exp (-x) := by positivity
  unfold Scalar.logLogistic
  have hlt : (Scalar.lt x (Scalar.ofInt 0 : ℝ) : Bool) = decide (x < 0) := by
    rw [ExactReals.ofInt_eq, Int.cast_zero]
    rfl
  simp only [scalar_zero, lt_real, exp_real, neg_real, logOnePlus_real, logReal_pos hone,
    logReal_pos hone', sub_real, hlt]
  split <;> rfl

end Extended

/-! ## The standard normal distribution -/

namespace ExactReals

/-- A set that has a length has mass. -/
theorem gaussianReal_pos {s : Set ℝ} (hs : volume s ≠ 0) : 0 < (gaussianReal 0 1).real s := by
  have hmass : gaussianReal 0 1 s ≠ 0 :=
    fun h => hs (gaussianReal_absolutelyContinuous' 0 one_ne_zero h)
  exact ENNReal.toReal_pos hmass (measure_ne_top _ s)

/-- The standard normal distribution function is positive. -/
theorem normalCdf_pos (x : ℝ) : 0 < normalCdf x := gaussianReal_pos (by simp)

/-- The standard normal distribution function stays below one. -/
theorem normalCdf_lt_one (x : ℝ) : normalCdf x < 1 := by
  have htail : 0 < (gaussianReal 0 1).real (Set.Iic x)ᶜ := gaussianReal_pos (by simp)
  rw [probReal_compl_eq_one_sub measurableSet_Iic] at htail
  exact sub_pos.mp htail

end ExactReals

/-! ## Distributions -/

/-- A continuous distribution. No mass lies below `lower` or above `upper`; on the domain, a family
computes the distribution function. -/
structure Distribution where
  cdf : ℝ → ℝ
  lower : Option ℝ := none
  upper : Option ℝ := none
  domain : Set ℝ := Set.univ

open ExactReals in
/-- The distributions of the families that can be truncated, by name and valid parameters. -/
inductive HasDistribution : String → List ℝ → Distribution → Prop
  | normal {mu tau : ℝ} (htau : 0 < tau) :
      HasDistribution "dnorm" [mu, tau] { cdf := fun x => normalCdf ((x - mu) * √tau) }
  | logNormal {mu tau : ℝ} (htau : 0 < tau) :
      HasDistribution "dlnorm" [mu, tau]
        { cdf := fun x => if x ≤ 0 then 0 else normalCdf ((Real.log x - mu) * √tau)
          lower := some 0
          domain := Set.Ici 0 }
  | logistic {mu tau : ℝ} (htau : 0 < tau) :
      HasDistribution "dlogis" [mu, tau] { cdf := fun x => (tau * (x - mu)).sigmoid }
  | exponential {rate : ℝ} (hrate : 0 < rate) :
      HasDistribution "dexp" [rate]
        { cdf := fun x => if x < 0 then 0 else 1 - Real.exp (-rate * x)
          lower := some 0
          domain := Set.Ici 0 }
  | weibull {v rate : ℝ} (hv : 0 < v) (hrate : 0 < rate) :
      HasDistribution "dweib" [v, rate]
        { cdf := fun x => if x < 0 then 0 else 1 - Real.exp (-rate * x ^ v)
          lower := some 0
          domain := Set.Ici 0 }
  | uniform {a b : ℝ} (hab : a < b) :
      HasDistribution "dunif" [a, b]
        { cdf := fun x => if x < a then 0 else if b < x then 1 else (x - a) / (b - a)
          lower := some a
          upper := some b }
  | pareto {alpha c : ℝ} (halpha : 0 < alpha) (hc : 0 < c) :
      HasDistribution "dpar" [alpha, c]
        { cdf := fun x => if x < c then 0 else 1 - (c / x) ^ alpha
          lower := some c
          domain := Set.Ici c }

/-- The values of a distribution function: there is none below the domain, and it is zero or one
only outside the support. -/
structure Distribution.Regular (D : Distribution) : Prop where
  nonneg : ∀ x, 0 ≤ D.cdf x
  le_one : ∀ x, D.cdf x ≤ 1
  zero : ∀ x, D.cdf x = 0 → ∃ a ∈ D.lower, x ≤ a
  one : ∀ x, D.cdf x = 1 → ∃ b ∈ D.upper, b ≤ x
  outside : ∀ x, x ∉ D.domain → D.cdf x = 0

namespace Distribution

/-- A distribution function strictly between zero and one. -/
theorem regular_of_Ioo {F : ℝ → ℝ} (h : ∀ x, F x ∈ Set.Ioo 0 1) :
    (⟨F, none, none, Set.univ⟩ : Distribution).Regular where
  nonneg x := (h x).1.le
  le_one x := (h x).2.le
  zero x hx := absurd hx (h x).1.ne'
  one x hx := absurd hx (h x).2.ne
  outside x hx := absurd (Set.mem_univ x) hx

/-- A distribution function that is zero up to `a` and strictly between zero and one above. -/
theorem regular_of_lower {F : ℝ → ℝ} {a : ℝ} (hzero : ∀ x ≤ a, F x = 0)
    (h : ∀ x, a < x → F x ∈ Set.Ioo 0 1) :
    (⟨F, some a, none, Set.Ici a⟩ : Distribution).Regular where
  nonneg x := by
    rcases le_or_gt x a with hx | hx
    · exact (hzero x hx).ge
    · exact (h x hx).1.le
  le_one x := by
    rcases le_or_gt x a with hx | hx
    · exact (hzero x hx).le.trans zero_le_one
    · exact (h x hx).2.le
  zero x hx := ⟨a, rfl, not_lt.mp fun hlt => (h x hlt).1.ne' hx⟩
  one x hx := by
    rcases le_or_gt x a with hle | hlt
    · exact absurd ((hzero x hle).symm.trans hx) zero_ne_one
    · exact absurd hx (h x hlt).2.ne
  outside x hx := hzero x (not_le.mp hx).le

/-- The distribution function between two bounds is regular. -/
theorem regular_uniform {a b : ℝ} (hab : a < b) :
    (⟨fun x => if x < a then 0 else if b < x then 1 else (x - a) / (b - a), some a, some b,
      Set.univ⟩ : Distribution).Regular := by
  have hwidth : 0 < b - a := sub_pos.mpr hab
  refine ⟨fun x => ?_, fun x => ?_, fun x => ?_, fun x => ?_,
    fun x hx => absurd (Set.mem_univ x) hx⟩
  · dsimp only
    split_ifs with hl hu
    · exact le_rfl
    · exact zero_le_one
    · exact div_nonneg (by linarith) hwidth.le
  · dsimp only
    split_ifs with hl hu
    · exact zero_le_one
    · exact le_rfl
    · rw [div_le_one hwidth]
      linarith
  · dsimp only
    split_ifs with hl hu
    · exact fun _ => ⟨a, rfl, hl.le⟩
    · exact fun h => absurd h one_ne_zero
    · intro h
      have hx : x - a = 0 := (div_eq_zero_iff.mp h).resolve_right hwidth.ne'
      exact ⟨a, rfl, by linarith⟩
  · dsimp only
    split_ifs with hl hu
    · exact fun h => absurd h zero_ne_one
    · exact fun _ => ⟨b, rfl, hu.le⟩
    · intro h
      have hx : x - a = b - a := (div_eq_one_iff_eq hwidth.ne').mp h
      exact ⟨b, rfl, by linarith⟩

end Distribution

/-- One minus the exponential of a negative number lies between zero and one. -/
theorem one_sub_exp_mem_Ioo {t : ℝ} (ht : t < 0) : 1 - Real.exp t ∈ Set.Ioo (0 : ℝ) 1 := by
  have hlt : Real.exp t < 1 := Real.exp_lt_one_iff.mpr ht
  have hpos := Real.exp_pos t
  constructor <;> linarith

variable {name : String} {ps : List ℝ} {D : Distribution}

/-- The distribution functions of the families. -/
theorem HasDistribution.regular (h : HasDistribution name ps D) : D.Regular := by
  cases h with
  | normal htau =>
    exact Distribution.regular_of_Ioo fun x =>
      ⟨ExactReals.normalCdf_pos _, ExactReals.normalCdf_lt_one _⟩
  | logNormal htau =>
    refine Distribution.regular_of_lower (fun x hx => if_pos hx) fun x hx => ?_
    rw [if_neg hx.not_ge]
    exact ⟨ExactReals.normalCdf_pos _, ExactReals.normalCdf_lt_one _⟩
  | logistic htau =>
    exact Distribution.regular_of_Ioo fun x => ⟨Real.sigmoid_pos _, Real.sigmoid_lt_one _⟩
  | exponential hrate =>
    refine Distribution.regular_of_lower (fun x hx => ?_) fun x hx => ?_
    · rcases hx.lt_or_eq with hlt | rfl
      · exact if_pos hlt
      · simp
    · rw [if_neg hx.not_gt]
      exact one_sub_exp_mem_Ioo (by nlinarith)
  | @weibull v rate hv hrate =>
    refine Distribution.regular_of_lower (fun x hx => ?_) fun x hx => ?_
    · rcases hx.lt_or_eq with hlt | rfl
      · exact if_pos hlt
      · simp [Real.zero_rpow hv.ne']
    · rw [if_neg hx.not_gt]
      have hpower := Real.rpow_pos_of_pos hx v
      exact one_sub_exp_mem_Ioo (by nlinarith)
  | uniform hab => exact Distribution.regular_uniform hab
  | @pareto alpha c halpha hc =>
    refine Distribution.regular_of_lower (fun x hx => ?_) fun x hx => ?_
    · rcases hx.lt_or_eq with hlt | rfl
      · exact if_pos hlt
      · simp [div_self hc.ne']
    · rw [if_neg hx.not_gt]
      have hratio : c / x < 1 := (div_lt_one (hc.trans hx)).mpr hx
      have hpos : 0 < c / x := div_pos hc (hc.trans hx)
      have hpower := Real.rpow_lt_one hpos.le hratio halpha
      have hpower' := Real.rpow_pos_of_pos hpos alpha
      constructor <;> linarith

/-! ## The computed distribution functions -/

namespace Extended

/-- Not the logarithm of zero, as it would be where there is no mass: no number, or the logarithm of
a positive number. -/
def Spurious (e : Extended) : Prop := e = nan ∨ ∃ p, 0 < p ∧ e = real (Real.log p)

variable {x : ℝ}

/-- The logarithm of anything but zero is spurious. -/
theorem spurious_of_ne {p : ℝ} (hp : p ≠ 0) : (logReal p).Spurious := by
  rcases hp.lt_or_gt with hneg | hpos
  · exact Or.inl (logReal_neg hneg)
  · exact Or.inr ⟨p, hpos, logReal_pos hpos⟩

/-- Outside their support, the exponential families compute the logarithm of a nonzero number. -/
theorem spurious_one_sub_exp {t : ℝ} (ht : t ≠ 0) : (logReal (1 - Real.exp t)).Spurious :=
  spurious_of_ne (sub_ne_zero.mpr fun h => ht ((Real.exp_eq_one_iff t).mp h.symm))

/-- The logarithm of the normal distribution function, at a real. -/
theorem logNormalCdf_real (x : ℝ) :
    Scalar.logNormalCdf (real x) = logReal (ExactReals.normalCdf x) :=
  (logReal_pos (ExactReals.normalCdf_pos x)).symm

/-- The scale that belongs to a precision. -/
theorem scaleOf_real {tau : ℝ} (htau : 0 < tau) :
    Builtin.scaleOf (real tau) = real (1 / √tau) := by
  unfold Builtin.scaleOf
  rw [num_eq, sqrt_real htau.le, Int.cast_one, div_real (Real.sqrt_pos.mpr htau).ne']

/-- Dividing by the standard deviation multiplies by the square root of the precision. -/
theorem div_scaleOf {tau : ℝ} (htau : 0 < tau) (x : ℝ) :
    real x / Builtin.scaleOf (real tau) = real (x * √tau) := by
  have hroot : √tau ≠ 0 := (Real.sqrt_pos.mpr htau).ne'
  rw [scaleOf_real htau, div_real (one_div_ne_zero hroot), div_div_eq_mul_div, div_one]

/-- The bottom divided by the standard deviation is the bottom. -/
theorem bottom_div_scaleOf {tau : ℝ} (htau : 0 < tau) :
    bottom / Builtin.scaleOf (real tau) = bottom := by
  have hpos : ¬ 1 / √tau < 0 := (one_div_pos.mpr (Real.sqrt_pos.mpr htau)).not_gt
  rw [scaleOf_real htau]
  change infinity (-1 * if 1 / √tau < 0 then -1 else 1) = bottom
  rw [if_neg hpos]
  norm_num [infinity]

/-- The logarithm of `1 - exp t`, as the families compute it. -/
theorem log_neg_expMinusOne (t : ℝ) :
    Scalar.log (-Scalar.expMinusOne (real t)) = logReal (1 - Real.exp t) := by
  rw [expMinusOne_real, neg_real, log_real, neg_sub]

end Extended

/-- The distribution function is computed on the domain, and below it something else than zero. -/
structure Distribution.ComputedBy (D : Distribution) (e : ℝ → Extended) : Prop where
  inside : ∀ x ∈ D.domain, e x = Extended.logReal (D.cdf x)
  outside : ∀ x, x ∉ D.domain → (e x).Spurious

namespace Distribution

open Extended Builtin

/-- A distribution function with the whole line as its domain is computed if its formula is right.
-/
theorem computedBy_of_univ {F : ℝ → ℝ} {e : ℝ → Extended} {p q : Option ℝ}
    (h : ∀ x, e x = logReal (F x)) : (⟨F, p, q, Set.univ⟩ : Distribution).ComputedBy e :=
  ⟨fun x _ => h x, fun x hx => absurd (Set.mem_univ x) hx⟩

/-- A distribution function on a half line is computed if its formula is right there, and spurious
below. -/
theorem computedBy_of_lower {F : ℝ → ℝ} {e : ℝ → Extended} {a : ℝ}
    (hinside : ∀ x, a ≤ x → e x = logReal (F x)) (houtside : ∀ x < a, (e x).Spurious) :
    (⟨F, some a, none, Set.Ici a⟩ : Distribution).ComputedBy e :=
  ⟨hinside, fun x hx => houtside x (not_le.mp hx)⟩

/-- The normal distribution function is computed from the standard one. -/
theorem normal_computed {tau : ℝ} (htau : 0 < tau) (mu : ℝ) :
    ({ cdf := fun x => ExactReals.normalCdf ((x - mu) * √tau) } : Distribution).ComputedBy
      fun x => Scalar.logNormalCdf ((real x - real mu) / scaleOf (real tau)) := by
  refine computedBy_of_univ fun x => ?_
  rw [sub_real, div_scaleOf htau, logNormalCdf_real]

/-- The log-normal distribution function is the normal one of the logarithm, which is the bottom at
zero and no number below. -/
theorem logNormal_computed {tau : ℝ} (htau : 0 < tau) (mu : ℝ) :
    ({ cdf := fun x => if x ≤ 0 then 0 else ExactReals.normalCdf ((Real.log x - mu) * √tau)
       lower := some 0
       domain := Set.Ici 0 } : Distribution).ComputedBy
      fun x => Scalar.logNormalCdf ((logReal x - real mu) / scaleOf (real tau)) := by
  refine computedBy_of_lower (fun x hx => ?_) fun x hx => ?_
  · rcases hx.eq_or_lt with rfl | hpos
    · have hbottom : bottom - real mu = bottom := rfl
      rw [logReal_zero, hbottom, bottom_div_scaleOf htau, if_pos le_rfl, logReal_zero]
      rfl
    · rw [logReal_pos hpos, sub_real, div_scaleOf htau, logNormalCdf_real, if_neg hpos.not_ge]
  · rw [logReal_neg hx]
    exact Or.inl rfl

/-- The logistic distribution function is the sigmoid. -/
theorem logistic_computed (mu tau : ℝ) :
    ({ cdf := fun x => (tau * (x - mu)).sigmoid } : Distribution).ComputedBy
      fun x => Scalar.logLogistic (real tau * (real x - real mu)) := by
  refine computedBy_of_univ fun x => ?_
  rw [sub_real, mul_real, logLogistic_real]

/-- The exponential distribution function is one minus an exponential, which is negative below zero.
-/
theorem exponential_computed {rate : ℝ} (hrate : 0 < rate) :
    ({ cdf := fun x => if x < 0 then 0 else 1 - Real.exp (-rate * x)
       lower := some 0
       domain := Set.Ici 0 } : Distribution).ComputedBy
      fun x => Scalar.log (-Scalar.expMinusOne (-real rate * real x)) := by
  refine computedBy_of_lower (fun x hx => ?_) fun x hx => ?_
  · rw [neg_real, mul_real, log_neg_expMinusOne, if_neg hx.not_gt]
  · rw [neg_real, mul_real, log_neg_expMinusOne]
    exact spurious_one_sub_exp (mul_ne_zero (neg_ne_zero.mpr hrate.ne') hx.ne)

/-- The Weibull distribution function is one minus the exponential of a power. -/
theorem weibull_computed {v rate : ℝ} (hv : 0 < v) (hrate : 0 < rate) :
    ({ cdf := fun x => if x < 0 then 0 else 1 - Real.exp (-rate * x ^ v)
       lower := some 0
       domain := Set.Ici 0 } : Distribution).ComputedBy
      fun x => Scalar.log (-Scalar.expMinusOne (-real rate * powReal x v)) := by
  refine computedBy_of_lower (fun x hx => ?_) fun x hx => ?_
  · have hpow : powReal x v = real (x ^ v) := by
      rcases hx.eq_or_lt with rfl | hpos
      · simp [powReal, hv, hv.ne', Real.zero_rpow hv.ne']
      · exact if_pos (Or.inl hpos)
    rw [hpow, neg_real, mul_real, log_neg_expMinusOne, if_neg hx.not_gt]
  · -- a negative base has integral powers, which are not zero
    have hpow : powReal x v = if v = ⌊v⌋ then real (x ^ ⌊v⌋) else nan := by
      unfold powReal
      rw [if_neg (not_or.mpr ⟨hx.not_gt, hv.ne'⟩), if_neg hx.ne]
    rw [hpow]
    split
    · rw [neg_real, mul_real, log_neg_expMinusOne]
      exact spurious_one_sub_exp
        (mul_ne_zero (neg_ne_zero.mpr hrate.ne') (zpow_ne_zero _ hx.ne))
    · exact Or.inl rfl

/-- The uniform distribution function is clipped at both bounds, so that its domain is the whole
line. -/
theorem uniform_computed {a b : ℝ} (hab : a < b) :
    ({ cdf := fun x => if x < a then 0 else if b < x then 1 else (x - a) / (b - a)
       lower := some a
       upper := some b } : Distribution).ComputedBy
      fun x => Scalar.log ((clip (real x) (real a) (real b) - real a) / (real b - real a)) := by
  have hwidth : b - a ≠ 0 := (sub_pos.mpr hab).ne'
  refine computedBy_of_univ fun x => ?_
  unfold clip
  rw [max_real, min_real, sub_real, sub_real, div_real hwidth, log_real]
  congr 1
  split_ifs with hl hu
  · rw [max_eq_right hl.le, min_eq_left hab.le, sub_self, zero_div]
  · rw [max_eq_left (not_lt.mp hl), min_eq_right hu.le, div_self hwidth]
  · rw [max_eq_left (not_lt.mp hl), min_eq_left (not_lt.mp hu)]

/-- The Pareto distribution function is one minus a power, which is negative below the scale. -/
theorem pareto_computed {alpha c : ℝ} (halpha : 0 < alpha) (hc : 0 < c) :
    ({ cdf := fun x => if x < c then 0 else 1 - (c / x) ^ alpha
       lower := some c
       domain := Set.Ici c } : Distribution).ComputedBy
      fun x => Scalar.log (-Scalar.expMinusOne (real alpha * (logReal c - logReal x))) := by
  have hformula (x : ℝ) (hx : 0 < x) :
      Scalar.log (-Scalar.expMinusOne (real alpha * (logReal c - logReal x))) =
        logReal (1 - (c / x) ^ alpha) := by
    rw [logReal_pos hc, logReal_pos hx, sub_real, mul_real, log_neg_expMinusOne,
      Real.rpow_def_of_pos (div_pos hc hx), Real.log_div hc.ne' hx.ne', mul_comm]
  refine computedBy_of_lower (fun x hx => ?_) fun x hx => ?_
  · rw [hformula x (hc.trans_le hx), if_neg hx.not_gt]
  · rcases lt_trichotomy x 0 with hneg | rfl | hpos
    · rw [logReal_neg hneg, logReal_pos hc]
      exact Or.inl rfl
    · -- the quotient by zero is infinite, and its power is as well
      have hinfinite : real alpha * (real (Real.log c) - bottom) = top := by
        change infinity (SignType.sign alpha * 1) = top
        simp [infinity, sign_pos halpha]
      rw [logReal_zero, logReal_pos hc, hinfinite]
      exact Or.inl rfl
    · have hpower : 1 < (c / x) ^ alpha :=
        Real.one_lt_rpow ((one_lt_div hpos).mpr hx) halpha
      rw [hformula x hpos]
      exact spurious_of_ne (sub_ne_zero.mpr hpower.ne)

end Distribution

/-- A value that is a real number. -/
def Value.IsReal (v : Value Extended) (x : ℝ) : Prop := v.toTensor = .ok (.scalar (.real x))

/-- A value is at most one real number. -/
theorem Value.IsReal.unique {v : Value Extended} {x y : ℝ} (h : v.IsReal x) (h' : v.IsReal y) :
    x = y :=
  Extended.real.inj (Tensor.scalar_inj (Except.ok.inj (h.symm.trans h')))

/-- An integral constant of a family is a real value. -/
theorem Value.isReal_num (n : ℤ) : (Value.real (Builtin.num n)).IsReal n := by
  change Except.ok (Tensor.scalar (Builtin.num n)) = _
  rw [Extended.num_eq]

section Families

variable {f : Family Extended}

/-- The families that can be truncated compute their distribution functions. -/
theorem HasDistribution.exists_routines (h : HasDistribution name ps D)
    (hf : (Registry.builtin : Registry Extended).families.get? name = some f) :
    ∃ names density g, names.length = ps.length ∧ f.logPdf = Builtin.pointRoutine names density ∧
      f.logCdf = some (Builtin.pointRoutine names g) ∧
      D.ComputedBy fun x => g (.real x) (ps.map .real) := by
  cases h with
  | normal htau =>
    obtain rfl := Option.some.inj hf
    exact ⟨_, _, _, rfl, rfl, rfl, Distribution.normal_computed htau _⟩
  | logNormal htau =>
    obtain rfl := Option.some.inj hf
    exact ⟨_, _, _, rfl, rfl, rfl, Distribution.logNormal_computed htau _⟩
  | logistic htau =>
    obtain rfl := Option.some.inj hf
    exact ⟨_, _, _, rfl, rfl, rfl, Distribution.logistic_computed _ _⟩
  | exponential hrate =>
    obtain rfl := Option.some.inj hf
    exact ⟨_, _, _, rfl, rfl, rfl, Distribution.exponential_computed hrate⟩
  | weibull hv hrate =>
    obtain rfl := Option.some.inj hf
    exact ⟨_, _, _, rfl, rfl, rfl, Distribution.weibull_computed hv hrate⟩
  | uniform hab =>
    obtain rfl := Option.some.inj hf
    exact ⟨_, _, _, rfl, rfl, rfl, Distribution.uniform_computed hab⟩
  | pareto halpha hc =>
    obtain rfl := Option.some.inj hf
    exact ⟨_, _, _, rfl, rfl, rfl, Distribution.pareto_computed halpha hc⟩

/-- The support of a family is where the distribution has its mass. -/
theorem HasDistribution.support (h : HasDistribution name ps D)
    (hf : (Registry.builtin : Registry Extended).families.get? name = some f)
    {params : List (Value Extended)} (hparams : List.Forall₂ Value.IsReal params ps) :
    Option.Rel Value.IsReal (f.support.meaning params).lower D.lower ∧
      Option.Rel Value.IsReal (f.support.meaning params).upper D.upper := by
  have hzero : (Value.real (Builtin.num 0)).IsReal 0 := by
    simpa using Value.isReal_num 0
  cases h with
  | normal htau =>
    obtain rfl := Option.some.inj hf
    exact ⟨.none, .none⟩
  | logNormal htau =>
    obtain rfl := Option.some.inj hf
    exact ⟨.some hzero, .none⟩
  | logistic htau =>
    obtain rfl := Option.some.inj hf
    exact ⟨.none, .none⟩
  | exponential hrate =>
    obtain rfl := Option.some.inj hf
    exact ⟨.some hzero, .none⟩
  | weibull hv hrate =>
    obtain rfl := Option.some.inj hf
    exact ⟨.some hzero, .none⟩
  | uniform hab =>
    obtain rfl := Option.some.inj hf
    obtain _ | ⟨ha, _ | ⟨hb, _⟩⟩ := hparams
    exact ⟨.some ha, .some hb⟩
  | pareto halpha hc =>
    obtain rfl := Option.some.inj hf
    obtain _ | ⟨_, _ | ⟨hc, _⟩⟩ := hparams
    exact ⟨.some hc, .none⟩

/-- A distribution is given for each family that can be truncated. -/
theorem exists_hasDistribution
    (hf : (Registry.builtin : Registry Extended).families.get? name = some f)
    (htruncatable : f.truncatable = true) : ∃ ps D, HasDistribution name ps D := by
  have hall : ∀ f ∈ Builtin.families (α := Extended), f.truncatable = true →
      ∃ ps D, HasDistribution f.name ps D := by
    have hnone {f : Family Extended} (h : f.logCdf = none) (htruncatable : f.truncatable = true) :
        ∃ ps D, HasDistribution f.name ps D := by
      rw [Family.truncatable, h] at htruncatable
      cases htruncatable
    simp only [Builtin.families, Builtin.continuousFamilies, Builtin.discreteFamilies,
      List.forall_mem_append, List.forall_mem_cons, List.not_mem_nil, false_implies, implies_true]
    -- in the order of the lists
    exact ⟨⟨fun _ => ⟨[0, 1], _, .normal one_pos⟩, fun _ => ⟨[0, 1], _, .logNormal one_pos⟩,
      hnone rfl, fun _ => ⟨[0, 1], _, .logistic one_pos⟩, hnone rfl, hnone rfl,
      fun _ => ⟨_, _, .exponential one_pos⟩, hnone rfl, fun _ => ⟨_, _, .weibull one_pos one_pos⟩,
      hnone rfl, fun _ => ⟨_, _, .uniform one_pos⟩, fun _ => ⟨_, _, .pareto one_pos one_pos⟩,
      trivial⟩, hnone rfl, hnone rfl, hnone rfl, hnone rfl, trivial⟩
  obtain ⟨e, he, heq⟩ := List.mem_map.mp (Table.mem_of_get?_ofList hf)
  cases heq
  exact hall f he htruncatable

end Families

end BayesGraph
