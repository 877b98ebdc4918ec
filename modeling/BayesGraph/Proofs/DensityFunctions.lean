import Mathlib
import BayesGraph.Proofs.DistributionFunctions

/-!
# Densities as derivatives

The families that can be truncated have two formulas, one for the logarithm of the density and one
for the logarithm of the distribution function. Over the reals the two belong together: inside the
support, the derivative of the distribution function is the density
(`hasDerivAt_exp_logCdf`). All numbers that occur are reals there.
-/

set_option autoImplicit false

namespace BayesGraph

open MeasureTheory ProbabilityTheory
open scoped Topology

/-! ## Derivatives of extended reals -/

namespace Extended

/-- Around a point a function has real values, and its derivative at this point is a real. -/
def IsDerivAt (f : ℝ → Extended) (slope : Extended) (x : ℝ) : Prop :=
  ∃ g p, (∀ᶠ t in 𝓝 x, f t = real (g t)) ∧ HasDerivAt g p x ∧ slope = real p

end Extended

/-! ## The distribution functions -/

namespace ExactReals

/-- The derivative of the normal distribution function is the normal density. -/
theorem hasDerivAt_normalCdf (x : ℝ) : HasDerivAt normalCdf (gaussianPDFReal 0 1 x) x := by
  have hcdf (y : ℝ) : normalCdf y = ∫ t in Set.Iic y, gaussianPDFReal 0 1 t := by
    have hnonneg : 0 ≤ ∫ t in Set.Iic y, gaussianPDFReal 0 1 t :=
      integral_nonneg fun t => gaussianPDFReal_nonneg 0 1 t
    unfold normalCdf
    rw [measureReal_def, gaussianReal_apply_eq_integral 0 one_ne_zero,
      ENNReal.toReal_ofReal hnonneg]
  have hintegrable := integrable_gaussianPDFReal 0 1
  have hsplit (y : ℝ) : normalCdf y = normalCdf 0 + ∫ t in (0 : ℝ)..y, gaussianPDFReal 0 1 t := by
    rw [hcdf, hcdf, ← intervalIntegral.integral_Iic_sub_Iic hintegrable.integrableOn
      hintegrable.integrableOn, add_sub_cancel]
  have hcontinuous : Continuous (gaussianPDFReal 0 1) := by
    rw [gaussianPDFReal_def]
    fun_prop
  have hderiv := intervalIntegral.integral_hasDerivAt_right
    (hcontinuous.intervalIntegrable 0 x) (hcontinuous.stronglyMeasurableAtFilter _ _)
    hcontinuous.continuousAt
  exact (hderiv.const_add (normalCdf 0)).congr_of_eventuallyEq (Filter.Eventually.of_forall hsplit)

end ExactReals

namespace Distribution

open ExactReals

/-- Above `a`, a distribution function that is zero up to `a` has the derivative of its formula. -/
theorem hasDerivAt_of_lower {F G : ℝ → ℝ} {a p x : ℝ} (hx : a < x) (hF : ∀ t, a < t → F t = G t)
    (hG : HasDerivAt G p x) : HasDerivAt F p x :=
  hG.congr_of_eventuallyEq ((lt_mem_nhds hx).mono hF)

variable {x mu tau rate v a b alpha c : ℝ}

/-- The derivative of the normal distribution function. -/
theorem hasDerivAt_normal (x mu tau : ℝ) :
    HasDerivAt (fun t => normalCdf ((t - mu) * √tau))
      (gaussianPDFReal 0 1 ((x - mu) * √tau) * √tau) x := by
  have hinner : HasDerivAt (fun t => (t - mu) * √tau) (1 * √tau) x :=
    ((hasDerivAt_id x).sub_const mu).mul_const √tau
  refine ((hasDerivAt_normalCdf _).comp x hinner).congr_deriv ?_
  rw [one_mul]

/-- The derivative of the distribution function of the log-normal family. -/
theorem hasDerivAt_logNormal (hx : 0 < x) (mu tau : ℝ) :
    HasDerivAt (fun t => if t ≤ 0 then 0 else normalCdf ((Real.log t - mu) * √tau))
      (gaussianPDFReal 0 1 ((Real.log x - mu) * √tau) * √tau / x) x := by
  refine hasDerivAt_of_lower hx (fun t ht => if_neg ht.not_ge) ?_
  have hinner := Real.hasDerivAt_log hx.ne'
  refine ((hasDerivAt_normal (Real.log x) mu tau).comp x hinner).congr_deriv ?_
  rw [div_eq_mul_inv]

/-- The derivative of the logistic distribution function. -/
theorem hasDerivAt_logistic (x mu tau : ℝ) :
    HasDerivAt (fun t => (tau * (t - mu)).sigmoid)
      (tau * (tau * (x - mu)).sigmoid * (-(tau * (x - mu))).sigmoid) x := by
  have hinner : HasDerivAt (fun t => tau * (t - mu)) (tau * 1) x :=
    ((hasDerivAt_id x).sub_const mu).const_mul tau
  refine ((Real.hasDerivAt_sigmoid _).comp x hinner).congr_deriv ?_
  rw [Real.sigmoid_neg]
  ring

/-- The derivative of the distribution function of the Weibull family. -/
theorem hasDerivAt_weibull (hx : 0 < x) (v rate : ℝ) :
    HasDerivAt (fun t => if t < 0 then 0 else 1 - Real.exp (-rate * t ^ v))
      (v * rate * x ^ (v - 1) * Real.exp (-rate * x ^ v)) x := by
  refine hasDerivAt_of_lower hx (fun t ht => if_neg ht.not_gt) ?_
  have hpower : HasDerivAt (fun t : ℝ => -rate * t ^ v) (-rate * (v * x ^ (v - 1))) x :=
    (Real.hasDerivAt_rpow_const (Or.inl hx.ne')).const_mul (-rate)
  refine (hpower.exp.const_sub 1).congr_deriv ?_
  ring

/-- The derivative of the exponential distribution function. -/
theorem hasDerivAt_exponential (hx : 0 < x) (rate : ℝ) :
    HasDerivAt (fun t => if t < 0 then 0 else 1 - Real.exp (-rate * t))
      (rate * Real.exp (-rate * x)) x := by
  have hweibull := hasDerivAt_weibull hx 1 rate
  simpa using hweibull

/-- The derivative of the uniform distribution function. -/
theorem hasDerivAt_uniform (ha : a < x) (hb : x < b) :
    HasDerivAt (fun t => if t < a then 0 else if b < t then 1 else (t - a) / (b - a))
      (1 / (b - a)) x := by
  have hlinear : HasDerivAt (fun t => (t - a) / (b - a)) (1 / (b - a)) x :=
    ((hasDerivAt_id x).sub_const a).div_const (b - a)
  refine hlinear.congr_of_eventuallyEq ?_
  filter_upwards [lt_mem_nhds ha, gt_mem_nhds hb] with t hat htb
  rw [if_neg hat.not_gt, if_neg htb.not_gt]

/-- The derivative of the distribution function of the Pareto family. -/
theorem hasDerivAt_pareto (hc : 0 < c) (hx : c < x) (alpha : ℝ) :
    HasDerivAt (fun t => if t < c then 0 else 1 - (c / t) ^ alpha)
      (alpha * (c / x) ^ alpha / x) x := by
  have hpos : 0 < x := hc.trans hx
  refine hasDerivAt_of_lower hx (fun t ht => if_neg ht.not_gt) ?_
  have hratio : HasDerivAt (fun t => c / t) (-c / x ^ 2) x := by
    simpa using (hasDerivAt_const x c).fun_div (hasDerivAt_id' x) hpos.ne'
  have hpower : HasDerivAt (fun t => (c / t) ^ alpha)
      (-c / x ^ 2 * alpha * (c / x) ^ (alpha - 1)) x :=
    hratio.rpow_const (Or.inl (div_pos hc hpos).ne')
  refine (hpower.const_sub 1).congr_deriv ?_
  rw [Real.rpow_sub_one (div_pos hc hpos).ne']
  field_simp

end Distribution

/-! ## The densities -/

namespace Extended

open Builtin

variable {x mu tau rate v a b alpha c : ℝ}

/-- The number pi is a real. -/
@[simp] theorem pi_eq : (Scalar.pi : Extended) = real Real.pi := rfl

/-- A factor is an exponent of the logarithm of a positive number. -/
theorem timesLog_real (hx : 0 < x) (y : ℝ) :
    Scalar.timesLog (real y) (real x) = real (y * Real.log x) := by
  have hpositive : Scalar.isPositive (real x) = true := by
    unfold Scalar.isPositive
    rw [scalar_zero, scalar_top, lt_real, decide_eq_true hx]
    rfl
  unfold Scalar.timesLog
  rw [hpositive, Bool.not_true, Bool.and_false, if_neg Bool.false_ne_true, log_real, logReal_pos hx,
    mul_real]

/-- What lies in the support is not restricted. -/
@[simp] theorem restrict_true (e : Extended) : restrict true e = e := rfl

/-- The log-density of the normal family is the logarithm of the derivative. -/
theorem normal_density (htau : 0 < tau) (x mu : ℝ) :
    normalLogPdf (real x) (real mu) (scaleOf (real tau)) =
      real (Real.log (gaussianPDFReal 0 1 ((x - mu) * √tau) * √tau)) := by
  have hroot : 0 < √tau := Real.sqrt_pos.mpr htau
  have hvariance : 1 / √tau * (1 / √tau) = tau⁻¹ := by
    rw [one_div_mul_one_div, Real.mul_self_sqrt htau.le, one_div]
  have hpos : 0 < 2 * Real.pi * tau⁻¹ := by positivity
  have hlog : Real.log (gaussianPDFReal 0 1 ((x - mu) * √tau) * √tau) =
      (Real.log (2 * Real.pi * tau⁻¹) + (x - mu) * (x - mu) / tau⁻¹) / -2 := by
    have hpi : 0 < 2 * Real.pi := by positivity
    have hroots : 0 < (√(2 * Real.pi))⁻¹ := inv_pos.mpr (Real.sqrt_pos.mpr hpi)
    unfold gaussianPDFReal
    rw [NNReal.coe_one, mul_one, mul_one, sub_zero, mul_pow, Real.sq_sqrt htau.le,
      Real.log_mul (mul_pos hroots (Real.exp_pos _)).ne' hroot.ne',
      Real.log_mul hroots.ne' (Real.exp_ne_zero _), Real.log_exp, Real.log_inv,
      Real.log_sqrt hpi.le, Real.log_sqrt htau.le, Real.log_mul hpi.ne' (inv_ne_zero htau.ne'),
      Real.log_inv]
    field_simp
    ring
  unfold normalLogPdf
  simp only [scaleOf_real htau, num_eq, pi_eq, mul_real, sub_real, log_real, hvariance,
    Int.cast_ofNat, logReal_pos hpos, div_real (inv_ne_zero htau.ne'), add_real]
  rw [div_real (by norm_num), hlog]
  norm_num

/-- The log-density of the log-normal family is the logarithm of the derivative. -/
theorem logNormal_density (htau : 0 < tau) (hx : 0 < x) (mu : ℝ) :
    restrict (Scalar.lt (num 0) (real x))
        (normalLogPdf (Scalar.log (real x)) (real mu) (scaleOf (real tau)) - Scalar.log (real x)) =
      real (Real.log (gaussianPDFReal 0 1 ((Real.log x - mu) * √tau) * √tau / x)) := by
  have hdensity : 0 < gaussianPDFReal 0 1 ((Real.log x - mu) * √tau) * √tau :=
    mul_pos (gaussianPDFReal_pos 0 1 _ one_ne_zero) (Real.sqrt_pos.mpr htau)
  rw [num_eq, Int.cast_zero, lt_real, decide_eq_true hx, restrict_true, log_real, logReal_pos hx,
    normal_density htau, sub_real, Real.log_div hdensity.ne' hx.ne']

/-- The log-density of the logistic family is the logarithm of the derivative. -/
theorem logistic_density (htau : 0 < tau) (x mu : ℝ) :
    Scalar.log (real tau) + Scalar.logLogistic (real tau * (real x - real mu)) +
        Scalar.logLogistic (-(real tau * (real x - real mu))) =
      real (Real.log (tau * (tau * (x - mu)).sigmoid * (-(tau * (x - mu))).sigmoid)) := by
  have hleft : 0 < (tau * (x - mu)).sigmoid := Real.sigmoid_pos _
  have hright : 0 < (-(tau * (x - mu))).sigmoid := Real.sigmoid_pos _
  simp only [sub_real, mul_real, neg_real, logLogistic_real, log_real, logReal_pos htau,
    logReal_pos hleft, logReal_pos hright, add_real]
  rw [Real.log_mul (mul_pos htau hleft).ne' hright.ne', Real.log_mul htau.ne' hleft.ne']

/-- The log-density of the exponential family is the logarithm of the derivative. -/
theorem exponential_density (hrate : 0 < rate) (hx : 0 < x) :
    restrict (Scalar.le (num 0) (real x)) (Scalar.log (real rate) - real rate * real x) =
      real (Real.log (rate * Real.exp (-rate * x))) := by
  rw [num_eq, Int.cast_zero, le_real, decide_eq_true hx.le, restrict_true, log_real,
    logReal_pos hrate, mul_real, sub_real, Real.log_mul hrate.ne' (Real.exp_ne_zero _),
    Real.log_exp, neg_mul, ← sub_eq_add_neg]

/-- The log-density of the Weibull family is the logarithm of the derivative. -/
theorem weibull_density (hv : 0 < v) (hrate : 0 < rate) (hx : 0 < x) :
    restrict (Scalar.le (num 0) (real x))
        (Scalar.log (real v) + Scalar.log (real rate) + Scalar.timesLog (real v - num 1) (real x) -
          real rate * Scalar.pow (real x) (real v)) =
      real (Real.log (v * rate * x ^ (v - 1) * Real.exp (-rate * x ^ v))) := by
  have hpow : Scalar.pow (real x) (real v) = real (x ^ v) := if_pos (Or.inl hx)
  have hpower : 0 < x ^ (v - 1) := Real.rpow_pos_of_pos hx _
  rw [num_eq, Int.cast_zero, le_real, decide_eq_true hx.le, restrict_true, num_eq, Int.cast_one,
    sub_real, timesLog_real hx, hpow, log_real, log_real, logReal_pos hv, logReal_pos hrate,
    mul_real, add_real, add_real, sub_real,
    Real.log_mul (mul_pos (mul_pos hv hrate) hpower).ne' (Real.exp_ne_zero _), Real.log_exp,
    Real.log_mul (mul_pos hv hrate).ne' hpower.ne', Real.log_mul hv.ne' hrate.ne',
    Real.log_rpow hx, neg_mul, ← sub_eq_add_neg]

/-- The log-density of the uniform family is the logarithm of the derivative. -/
theorem uniform_density (ha : a < x) (hb : x < b) :
    restrict (Scalar.le (real a) (real x) && Scalar.le (real x) (real b))
        (-Scalar.log (real b - real a)) =
      real (Real.log (1 / (b - a))) := by
  have hwidth : 0 < b - a := sub_pos.mpr (ha.trans hb)
  rw [le_real, le_real, decide_eq_true ha.le, decide_eq_true hb.le, Bool.and_true, restrict_true,
    sub_real, log_real, logReal_pos hwidth, neg_real, one_div, Real.log_inv]

/-- The log-density of the Pareto family is the logarithm of the derivative. -/
theorem pareto_density (halpha : 0 < alpha) (hc : 0 < c) (hx : c < x) :
    restrict (Scalar.le (real c) (real x))
        (Scalar.log (real alpha) + real alpha * Scalar.log (real c) -
          (real alpha + num 1) * Scalar.log (real x)) =
      real (Real.log (alpha * (c / x) ^ alpha / x)) := by
  have hpos : 0 < x := hc.trans hx
  have hpower : 0 < (c / x) ^ alpha := Real.rpow_pos_of_pos (div_pos hc hpos) _
  rw [le_real, decide_eq_true hx.le, restrict_true, num_eq, Int.cast_one, log_real, log_real,
    log_real, logReal_pos halpha, logReal_pos hc, logReal_pos hpos, mul_real, add_real, add_real,
    mul_real, sub_real, Real.log_div (mul_pos halpha hpower).ne' hpos.ne',
    Real.log_mul halpha.ne' hpower.ne', Real.log_rpow (div_pos hc hpos),
    Real.log_div hc.ne' hpos.ne']
  congr 1
  ring

end Extended

/-! ## The interior of the support -/

/-- A real is inside the bounds and equals none of them. -/
structure Support.Surrounds (s : Support Extended) (x : ℝ) : Prop where
  lower : ∀ v ∈ s.lower, ∀ a, v.IsReal a → a < x
  upper : ∀ v ∈ s.upper, ∀ b, v.IsReal b → x < b

/-- A real is between the bounds outside of which a distribution has no mass. -/
structure Distribution.Surrounds (D : Distribution) (x : ℝ) : Prop where
  lower : ∀ a ∈ D.lower, a < x
  upper : ∀ b ∈ D.upper, x < b

/-- The reals inside the support of a family are those inside the support of the distribution. -/
theorem Support.Surrounds.distribution {s : Support Extended} {D : Distribution} {x : ℝ}
    (h : s.Surrounds x) (hlower : Option.Rel Value.IsReal s.lower D.lower)
    (hupper : Option.Rel Value.IsReal s.upper D.upper) : D.Surrounds x := by
  obtain ⟨hleft, hright⟩ := h
  constructor
  · intro a ha
    rw [ha] at hlower
    generalize hv : s.lower = v at hlower
    cases hlower with
    | @some w _ hw => exact hleft w hv a hw
  · intro b hb
    rw [hb] at hupper
    generalize hv : s.upper = v at hupper
    cases hupper with
    | @some w _ hw => exact hright w hv b hw

namespace HasDistribution

variable {name : String} {ps : List ℝ} {D : Distribution} {f : Family Extended} {x : ℝ}

/-- Around a point inside the support, the distribution function is computed. -/
theorem domain_mem_nhds (h : HasDistribution name ps D) (hx : D.Surrounds x) : D.domain ∈ 𝓝 x := by
  cases h with
  | normal | logistic | uniform => exact Filter.univ_mem
  | logNormal | exponential | weibull | pareto => exact Ici_mem_nhds (hx.lower _ rfl)

/-- Inside the support, a family computes the logarithm of the derivative of the distribution
function. -/
theorem exists_density (h : HasDistribution name ps D)
    (hf : (Registry.builtin : Registry Extended).families.get? name = some f)
    (hx : D.Surrounds x) :
    ∃ p, HasDerivAt D.cdf p x ∧ 0 < p ∧
      f.logPdf.meaning (.real x) (ps.map .real) = .real (Real.log p) := by
  -- One case for each distribution: its distribution function is differentiated, and the density
  -- of the family is compared with that.
  cases h with
  | normal htau =>
    obtain rfl := Option.some.inj hf
    exact ⟨_, Distribution.hasDerivAt_normal _ _ _,
      mul_pos (gaussianPDFReal_pos 0 1 _ one_ne_zero) (Real.sqrt_pos.mpr htau),
      Extended.normal_density htau _ _⟩
  | logNormal htau =>
    obtain rfl := Option.some.inj hf
    have hpos : 0 < x := hx.lower 0 rfl
    exact ⟨_, Distribution.hasDerivAt_logNormal hpos _ _,
      div_pos (mul_pos (gaussianPDFReal_pos 0 1 _ one_ne_zero) (Real.sqrt_pos.mpr htau)) hpos,
      Extended.logNormal_density htau hpos _⟩
  | logistic htau =>
    obtain rfl := Option.some.inj hf
    exact ⟨_, Distribution.hasDerivAt_logistic _ _ _,
      mul_pos (mul_pos htau (Real.sigmoid_pos _)) (Real.sigmoid_pos _),
      Extended.logistic_density htau _ _⟩
  | exponential hrate =>
    obtain rfl := Option.some.inj hf
    have hpos : 0 < x := hx.lower 0 rfl
    exact ⟨_, Distribution.hasDerivAt_exponential hpos _, mul_pos hrate (Real.exp_pos _),
      Extended.exponential_density hrate hpos⟩
  | weibull hv hrate =>
    obtain rfl := Option.some.inj hf
    have hpos : 0 < x := hx.lower 0 rfl
    exact ⟨_, Distribution.hasDerivAt_weibull hpos _ _,
      mul_pos (mul_pos (mul_pos hv hrate) (Real.rpow_pos_of_pos hpos _)) (Real.exp_pos _),
      Extended.weibull_density hv hrate hpos⟩
  | @uniform a b hab =>
    obtain rfl := Option.some.inj hf
    have ha : a < x := hx.lower a rfl
    have hb : x < b := hx.upper b rfl
    exact ⟨_, Distribution.hasDerivAt_uniform ha hb, one_div_pos.mpr (sub_pos.mpr hab),
      Extended.uniform_density ha hb⟩
  | @pareto alpha c halpha hc =>
    obtain rfl := Option.some.inj hf
    have hcx : c < x := hx.lower c rfl
    have hpos : 0 < x := hc.trans hcx
    exact ⟨_, Distribution.hasDerivAt_pareto hc hcx _,
      div_pos (mul_pos halpha (Real.rpow_pos_of_pos (div_pos hc hpos) _)) hpos,
      Extended.pareto_density halpha hc hcx⟩

end HasDistribution

/-- Every family that can be truncated has a distribution. For all valid parameters and all points
inside the support, the derivative of its distribution function is its density. -/
theorem hasDerivAt_exp_logCdf {name : String} {f : Family Extended}
    (hf : (Registry.builtin : Registry Extended).families.get? name = some f)
    (htruncatable : f.truncatable = true) :
    (∃ ps D, HasDistribution name ps D) ∧
    ∀ (ps : List ℝ) (D : Distribution), HasDistribution name ps D →
      ∀ params : List (Value Extended), List.Forall₂ Value.IsReal params ps →
      ∀ x : ℝ, (f.support.meaning params).Surrounds x →
        ∃ logCdf, f.logCdf = some logCdf ∧
          Extended.IsDerivAt
            (fun t => Scalar.exp (logCdf.meaning (.real t) (ps.map .real)))
            (Scalar.exp (f.logPdf.meaning (.real x) (ps.map .real))) x := by
  refine ⟨exists_hasDistribution hf htruncatable, fun ps D hD params hparams x hx => ?_⟩
  obtain ⟨hlower, hupper⟩ := hD.support hf hparams
  have hinside := hx.distribution hlower hupper
  obtain ⟨names, _, g, -, -, hlogCdf, hcomputed⟩ := hD.exists_routines hf
  obtain ⟨p, hderiv, hpos, hdensity⟩ := hD.exists_density hf hinside
  refine ⟨_, hlogCdf, D.cdf, p, ?_, hderiv, ?_⟩
  · filter_upwards [hD.domain_mem_nhds hinside] with t ht
    change Scalar.exp (g (.real t) (ps.map .real)) = _
    rw [hcomputed.inside t ht, Extended.exp_logReal (hD.regular.nonneg t)]
  · rw [hdensity, Extended.exp_real, Real.exp_log hpos]

/-- The exponential distribution with rate one at the point one. -/
theorem hasDerivAt_exponential_one :
    ∃ f logCdf, (Registry.builtin : Registry Extended).families.get? "dexp" = some f ∧
      f.truncatable = true ∧ f.logCdf = some logCdf ∧
      (f.support.meaning [.scalar (.real 1)]).Surrounds 1 ∧
      Extended.IsDerivAt (fun t => Scalar.exp (logCdf.meaning (.real t) [.real 1]))
        (Scalar.exp (f.logPdf.meaning (.real 1) [.real 1])) 1 := by
  obtain ⟨f, hf, htruncatable, hsupport⟩ : ∃ f,
      (Registry.builtin : Registry Extended).families.get? "dexp" = some f ∧
        f.truncatable = true ∧ f.support = Builtin.fixedSupport (some 0) none := ⟨_, rfl, rfl, rfl⟩
  have hinside : (f.support.meaning [.scalar (.real 1)]).Surrounds 1 := by
    rw [hsupport]
    refine ⟨?_, nofun⟩
    rintro _ ⟨⟩ a ha
    rw [ha.unique (Value.isReal_num 0), Int.cast_zero]
    exact one_pos
  obtain ⟨logCdf, hlogCdf, hderiv⟩ := (hasDerivAt_exp_logCdf hf htruncatable).2 [1] _
    (.exponential one_pos) [.scalar (.real 1)] (.cons rfl .nil) 1 hinside
  exact ⟨f, logCdf, hf, htruncatable, hlogCdf, hinside, hderiv⟩

end BayesGraph
