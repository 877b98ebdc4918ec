import Mathlib
import BayesGraph.Proofs.Concurrence
import BayesGraph.Proofs.DistributionFunctions
import BayesGraph.Proofs.ExtendedIntegers
import BayesGraph.Proofs.ScalarDistributions

/-!
# Truncation

The normalizer of a truncated distribution is the logarithm of the mass between the bounds, if the
lower bound is in the domain of the distribution function. A lower bound below the support of a
family that does not clip its argument cuts nothing off, but gives no normalizer
(`BoundDist.logNormalizer_iff`).
-/

set_option autoImplicit false

namespace BayesGraph

open Outcome

namespace Distribution

variable {D : Distribution} {e : ℝ → Extended} {lower upper : Option ℝ}

/-- The mass between two bounds. -/
def mass (D : Distribution) (lower upper : Option ℝ) : ℝ := upper.elim 1 D.cdf - lower.elim 0 D.cdf

/-- The normalizer as it is computed from the logarithm `e` of a distribution function. -/
noncomputable def logMass (e : ℝ → Extended) : Option ℝ → Option ℝ → Extended
  | none, none => Scalar.ofInt 0
  | some l, none => Scalar.logOnePlus (-Scalar.exp (e l))
  | none, some u => e u
  | some l, some u => e u + Scalar.logOnePlus (-Scalar.exp (e l - e u))

end Distribution

namespace Extended

variable {x p q : ℝ} {e : Extended}

/-- What is left after a part of the mass has been cut off. -/
theorem logOnePlus_neg_exp (hp : 0 ≤ p) (hp' : p < 1) :
    Scalar.logOnePlus (-Scalar.exp (logReal p)) = real (Real.log (1 - p)) := by
  rw [exp_logReal hp, neg_real, logOnePlus_real, ← sub_eq_add_neg, logReal_pos (sub_pos.mpr hp')]

/-- The quotient of two masses. -/
theorem logReal_sub (hp : 0 ≤ p) (hq : 0 < q) :
    logReal p - real (Real.log q) = logReal (p / q) := by
  rcases hp.eq_or_lt with rfl | hpos
  · rw [logReal_zero, zero_div, logReal_zero]
    rfl
  · rw [logReal_pos hpos, logReal_pos (div_pos hpos hq), sub_real, Real.log_div hpos.ne' hq.ne']

/-- A spurious number stays one when a finite logarithm is subtracted. -/
theorem Spurious.sub (h : e.Spurious) (hq : 0 < q) : (e - real (Real.log q)).Spurious := by
  rcases h with rfl | ⟨p, hp, rfl⟩
  · exact Or.inl rfl
  · exact Or.inr ⟨p / q, div_pos hp hq, by rw [sub_real, Real.log_div hp.ne' hq.ne']⟩

/-- Where nothing is to be cut off, something is. -/
theorem Spurious.logOnePlus_ne (h : e.Spurious) :
    Scalar.logOnePlus (-Scalar.exp e) ≠ real 0 := by
  rcases h with rfl | ⟨p, hp, rfl⟩
  · exact nofun
  · rw [exp_real, Real.exp_log hp, neg_real, logOnePlus_real]
    intro hzero
    unfold logReal at hzero
    split at hzero
    · next hpos =>
      have hone := Real.eq_one_of_pos_of_log_eq_zero hpos (real.inj hzero)
      linarith
    · split at hzero <;> cases hzero

/-- Zero can be subtracted without effect. -/
theorem sub_zero_real (e : Extended) : e - real 0 = e := by
  cases e with
  | real y => rw [sub_real, sub_zero]
  | nan | bottom | top => rfl

/-- What leaves a real unchanged in a sum is zero. -/
theorem eq_zero_of_add_eq (h : real x + e = real x) : e = real 0 := by
  cases e with
  | real y =>
    have hxy : x + y = x := real.inj h
    rw [left_eq_add.mp hxy.symm]
  | nan => cases h
  | bottom => cases h
  | top => cases h

end Extended

namespace Distribution

open Extended

variable {D : Distribution} {e : ℝ → Extended} {lower upper : Option ℝ}

/-- The computed normalizer is the logarithm of the mass exactly if the lower bound is in the
domain. -/
theorem logMass_eq_iff (hD : D.Regular) (he : D.ComputedBy e) (hmass : 0 < D.mass lower upper) :
    logMass e lower upper = real (Real.log (D.mass lower upper)) ↔ ∀ a ∈ lower, a ∈ D.domain := by
  have hinside {x : ℝ} (hx : 0 < D.cdf x) : e x = real (Real.log (D.cdf x)) := by
    have hdomain : x ∈ D.domain := by
      by_contra h
      exact hx.ne' (hD.outside x h)
    rw [he.inside x hdomain, logReal_pos hx]
  cases lower with
  | none =>
    refine iff_of_true ?_ (by simp)
    cases upper with
    | none => simp [logMass, mass]
    | some u =>
      rw [mass, Option.elim_some, Option.elim_none, sub_zero] at hmass ⊢
      exact hinside hmass
  | some l =>
    simp only [Option.mem_some_iff, forall_eq']
    have hnonneg := hD.nonneg l
    cases upper with
    | none =>
      rw [mass, Option.elim_some, Option.elim_none] at hmass ⊢
      -- Outside its domain the formula has no value at the bound, although the mass is positive.
      by_cases hl : l ∈ D.domain
      · refine iff_of_true ?_ hl
        rw [logMass, he.inside l hl, logOnePlus_neg_exp hnonneg (sub_pos.mp hmass)]
      · refine iff_of_false ?_ hl
        rw [hD.outside l hl, sub_zero, Real.log_one]
        exact (he.outside l hl).logOnePlus_ne
    | some u =>
      rw [mass, Option.elim_some, Option.elim_some] at hmass ⊢
      have hu : 0 < D.cdf u := by linarith
      rw [logMass, hinside hu]
      by_cases hl : l ∈ D.domain
      · refine iff_of_true ?_ hl
        have hratio : D.cdf l / D.cdf u < 1 := (div_lt_one hu).mpr (sub_pos.mp hmass)
        have hpart : 1 - D.cdf l / D.cdf u = (D.cdf u - D.cdf l) / D.cdf u := by
          field_simp
        rw [he.inside l hl, logReal_sub hnonneg hu,
          logOnePlus_neg_exp (div_nonneg hnonneg hu.le) hratio, add_real, hpart,
          Real.log_div hmass.ne' hu.ne', add_sub_cancel]
      · refine iff_of_false ?_ hl
        rw [hD.outside l hl, sub_zero]
        intro h
        exact ((he.outside l hl).sub hu).logOnePlus_ne (eq_zero_of_add_eq h)

/-- Bounds between which there is the whole mass lie outside the support. -/
theorem Regular.inside_of_mass (hD : D.Regular) (h : D.mass lower upper = 1) :
    (∀ a ∈ lower, ∃ c ∈ D.lower, a ≤ c) ∧ ∀ b ∈ upper, ∃ c ∈ D.upper, c ≤ b := by
  have hlow : 0 ≤ lower.elim 0 D.cdf := by
    cases lower with
    | none => exact le_rfl
    | some l => exact hD.nonneg l
  have hhigh : upper.elim 1 D.cdf ≤ 1 := by
    cases upper with
    | none => exact le_rfl
    | some u => exact hD.le_one u
  unfold mass at h
  refine ⟨?_, ?_⟩
  · rintro l ⟨⟩
    rw [Option.elim_some] at h hlow
    exact hD.zero l (by linarith)
  · rintro u ⟨⟩
    rw [Option.elim_some] at h hhigh
    exact hD.one u (by linarith)

end Distribution

/-! ## Distributions with real parameters and bounds -/

/-- A real is not outside the bounds. -/
structure Support.Admits (s : Support Extended) (x : ℝ) : Prop where
  lower : ∀ v ∈ s.lower, ∀ a, v.IsReal a → a ≤ x
  upper : ∀ v ∈ s.upper, ∀ b, v.IsReal b → x ≤ b

section Admits

variable {s : Support Extended} {x c : ℝ} {p : Option ℝ}

/-- An admitted point is not below the lower bound. -/
theorem Support.Admits.lower_le (h : s.Admits x) (hs : Option.Rel Value.IsReal s.lower p)
    (hc : c ∈ p) : c ≤ x := by
  generalize hv : s.lower = v at hs
  cases hs with
  | none => cases hc
  | @some w a hw =>
    cases hc
    exact h.lower w hv c hw

/-- An admitted point is not above the upper bound. -/
theorem Support.Admits.le_upper (h : s.Admits x) (hs : Option.Rel Value.IsReal s.upper p)
    (hc : c ∈ p) : x ≤ c := by
  generalize hv : s.upper = v at hs
  cases hs with
  | none => cases hc
  | @some w a hw =>
    cases hc
    exact h.upper w hv c hw

end Admits

/-- A real that is an operand is this operand. -/
theorem Value.IsReal.eq_of_operand {v : Value Extended} {x : ℝ} {t : Tensor Extended}
    (h : v.IsReal x) (ht : v.operand .density = .ok t) : t = .scalar (.real x) := by
  match v with
  | .number (.int n) =>
    obtain ⟨a, ha, hscalar⟩ := map_eq_ok.mp h
    obtain ⟨b, hb, rfl⟩ := map_eq_ok.mp ht
    have hofInt : a = Scalar.ofInt n := by
      rcases Value.ofInt_cases (α := Extended) n with hok | herror
      · exact Except.ok.inj (ha.symm.trans hok)
      · cases ha.symm.trans herror
    have hoperand : b = Scalar.ofInt n := by
      unfold Value.scalarOfInt at hb
      dsimp only at hb
      split at hb
      · exact (Except.ok.inj hb).symm
      · cases hb
    rw [hoperand, ← hofInt, hscalar]
  | .number (.real _) | .word _ _ | .array _ _ => exact Except.ok.inj (ht.symm.trans h)
  | .object d =>
    have hobject : Value.arrayOfObject .density d =
        (.error .wrongKind : Except EvalError (Tensor Extended)) :=
      if_neg fun h => nomatch h.1
    cases d with
    | text s => cases ht.symm.trans hobject
    | _ => cases ht.symm.trans hobject

namespace BoundDist

open Extended

variable {d : BoundDist Extended} {name : String} {ps : List ℝ} {D : Distribution}
  {lower upper : Option ℝ} {g : PointFunction Extended} {names : List String} {t : Tensor Extended}

/-- A distribution of a built-in family with real parameters between real bounds. -/
structure Truncates (d : BoundDist Extended) (name : String) (ps : List ℝ)
    (lower upper : Option ℝ) : Prop where
  family : (Registry.builtin : Registry Extended).families.get? name = some d.family
  params : List.Forall₂ Value.IsReal d.params ps
  lower : Option.Rel Value.IsReal d.lower lower
  upper : Option.Rel Value.IsReal d.upper upper

/-- Values that are reals are arrays of these reals. -/
theorem realParams_of_forall₂ {vs : List (Value Extended)} (h : List.Forall₂ Value.IsReal vs ps) :
    vs.mapM Value.toTensor = .ok ((ps.map .real).map .scalar) := by
  induction h with
  | nil => rfl
  | cons hv _ ih =>
    rw [List.mapM_cons, hv, ok_bind, ih]
    rfl

/-- Parameters are appended to the point one by one. -/
theorem foldlM_extend (a : Extended) (acc qs : List Extended) :
    (qs.map Tensor.scalar).foldlM
      (Value.zip .density fun (e : Extended × List Extended) q => (e.1, e.2 ++ [Scalar.flush q]))
      (.scalar (a, acc)) = .ok (.scalar (a, acc ++ qs)) := by
  induction qs generalizing acc with
  | nil => simp [Pure.pure, Except.pure]
  | cons q rest ih =>
    have hstep : Value.zip .density
        (fun (e : Extended × List Extended) q => (e.1, e.2 ++ [Scalar.flush q]))
        (.scalar (a, acc)) (.scalar q) = .ok (.scalar (a, acc ++ [q])) := rfl
    rw [List.map_cons, List.foldlM_cons, hstep, ok_bind, ih, List.append_assoc]
    rfl

/-- At a scalar, a point function is applied to scalars. -/
theorem applyPoint_scalar {f : Routine (PointFunction Extended)} {qs : List Extended}
    (haccepts : f.Accepts (qs.length + 1)) (x : Extended) :
    applyPoint f (.scalar x) (qs.map .scalar) = .ok (.scalar (f.meaning x qs)) := by
  have hcheck : f.check "" (some ((qs.map Tensor.scalar).length + 1)) = .ok () := by
    rw [List.length_map]
    exact haccepts ""
  have hfold := foldlM_extend x [] qs
  unfold applyPoint
  rw [hcheck]
  dsimp only
  rw [show (Tensor.scalar x).map (fun t => (Scalar.flush t, ([] : List Extended))) =
    .scalar (x, []) from rfl, hfold, ok_bind]
  rfl

/-- As many real parameters are given as are named. -/
theorem applyPoint_reals (hlength : names.length = ps.length) (x : Extended) :
    applyPoint (Builtin.pointRoutine names g) (.scalar x) ((ps.map .real).map .scalar) =
      .ok (.scalar (g x (ps.map .real))) := by
  refine applyPoint_scalar ?_ x
  rw [List.length_map, ← hlength]
  exact Builtin.accepts_pointRoutine names g

/-- The normalizer is a scalar. -/
theorem logNormalizer_eq (hd : d.Truncates name ps lower upper) (hlength : names.length = ps.length)
    (hlogCdf : d.family.logCdf = some (Builtin.pointRoutine names g)) :
    ∃ v, d.logNormalizer = .ok v ∧
      v.toTensor = .ok (.scalar (Distribution.logMass (fun x => g (.real x) (ps.map .real))
        lower upper)) ∧
      (d.truncated = true → ∃ z, v = .scalar z) := by
  have hcdf {b : Value Extended} {x : ℝ} (hb : b.IsReal x) :
      d.logCdfAt b ((ps.map .real).map .scalar) = .ok (.scalar (g (.real x) (ps.map .real))) := by
    unfold logCdfAt
    rw [hlogCdf]
    dsimp only
    rw [hb, ok_bind, applyPoint_reals hlength]
  have hparams : d.realParams = .ok ((ps.map .real).map .scalar) :=
    realParams_of_forall₂ hd.params
  have hlower := hd.lower
  have hupper := hd.upper
  unfold logNormalizer truncated
  rw [hparams, ok_bind]
  generalize d.lower = l at hlower ⊢
  generalize d.upper = u at hupper ⊢
  cases hlower with
  | none =>
    cases hupper with
    | none => exact ⟨_, rfl, rfl, nofun⟩
    | some hu =>
      dsimp only
      rw [hcdf hu]
      exact ⟨_, rfl, rfl, fun _ => ⟨_, rfl⟩⟩
  | some hl =>
    cases hupper with
    | none =>
      dsimp only
      rw [hcdf hl]
      exact ⟨_, rfl, rfl, fun _ => ⟨_, rfl⟩⟩
    | some hu =>
      dsimp only
      rw [hcdf hu, hcdf hl]
      exact ⟨_, rfl, rfl, fun _ => ⟨_, rfl⟩⟩

/-- A point between the bounds. -/
theorem insideBound_eq (inside : Extended → Extended → Bool) {b : Option (Value Extended)}
    {p : Option ℝ} {x : ℝ} (hb : Option.Rel Value.IsReal b p)
    (hoperand : ∀ v ∈ b, ∃ t, v.operand .density = .ok t)
    (hinside : ∀ a ∈ p, inside (.real x) (.real a) = true) :
    insideBound (.scalar (.real x)) b inside = .ok (b.map fun _ => .scalar true) := by
  cases hb with
  | none => rfl
  | @some v a hv =>
    obtain ⟨t, ht⟩ := hoperand v rfl
    have htrue := hinside a rfl
    unfold insideBound
    dsimp only
    rw [ht, ok_bind, hv.eq_of_operand ht]
    change Except.ok (some (Tensor.scalar (inside (.real x) (.real a)))) = _
    rw [htrue]
    rfl

/-- If nothing is cut off, the density is that of the distribution without bounds. -/
theorem logPdf_eq {x : ℝ} {v : Value Extended} (hv : v.IsReal x)
    (hd : d.Truncates name ps lower upper) (hlength : names.length = ps.length)
    {density : PointFunction Extended}
    (hlogPdf : d.family.logPdf = Builtin.pointRoutine names density)
    (hlogCdf : d.family.logCdf = some (Builtin.pointRoutine names g))
    (hmass : Distribution.logMass (fun x => g (.real x) (ps.map .real)) lower upper = .real 0)
    (hoperand : ∀ w, w ∈ d.lower ∨ w ∈ d.upper → ∃ t, w.operand .density = .ok t)
    (hlow : ∀ a ∈ lower, a ≤ x) (hhigh : ∀ b ∈ upper, x ≤ b) :
    d.logPdf v = .ok (.scalar (density (.real x) (ps.map .real))) := by
  have hparams : d.realParams = .ok ((ps.map .real).map .scalar) :=
    realParams_of_forall₂ hd.params
  obtain ⟨w, hw, hvalue, hscalar⟩ := logNormalizer_eq hd hlength hlogCdf
  have hinsideLow := insideBound_eq (x := x) (fun t b => Scalar.le b t) hd.lower
    (fun u hu => hoperand u (Or.inl hu)) fun a ha => by
      rw [le_real, decide_eq_true (hlow a ha)]
  have hinsideHigh := insideBound_eq (x := x) (fun t b => Scalar.le t b) hd.upper
    (fun u hu => hoperand u (Or.inr hu)) fun b hb => by
      rw [le_real, decide_eq_true (hhigh b hb)]
  unfold logPdf
  rw [hv, ok_bind, hparams, ok_bind, hlogPdf, applyPoint_reals hlength, ok_bind]
  split
  · next htruncated =>
    obtain ⟨z, rfl⟩ := hscalar htruncated
    rw [hmass] at hvalue
    obtain rfl : z = .real 0 := Tensor.scalar_inj (Except.ok.inj hvalue)
    have hboth : insideBoth (d.lower.map fun _ => Tensor.scalar true)
        (d.upper.map fun _ => Tensor.scalar true) = .ok (some (.scalar true)) := by
      unfold truncated at htruncated
      cases hl : d.lower with
      | none =>
        cases hu : d.upper with
        | none => rw [hl, hu] at htruncated; cases htruncated
        | some _ => rfl
      | some _ => cases d.upper <;> rfl
    have hsub : Value.sub (.array .density (.scalar (density (.real x) (ps.map .real))))
        (.scalar (.real 0)) = .ok (.scalar (density (.real x) (ps.map .real) - .real 0)) := rfl
    rw [hinsideLow, ok_bind, hinsideHigh, ok_bind, hw, ok_bind, hsub, ok_bind, hboth, ok_bind,
      sub_zero_real]
    rfl
  · rfl

/-- Every family that can be truncated has a distribution. Its normalizer between two bounds is the
logarithm of the mass between them exactly if the lower bound is in the domain of the distribution
function. Bounds that then cut nothing off do not change the density on the support of the
family. -/
theorem logNormalizer_iff {name : String} {f : Family Extended}
    (hf : (Registry.builtin : Registry Extended).families.get? name = some f)
    (htruncatable : f.truncatable = true) :
    (∃ ps D, HasDistribution name ps D) ∧
    ∀ (d : BoundDist Extended) (ps : List ℝ) (D : Distribution) (lower upper : Option ℝ),
      HasDistribution name ps D → d.Truncates name ps lower upper → 0 < D.mass lower upper →
      ((∃ v, d.logNormalizer = .ok v ∧ v.IsReal (Real.log (D.mass lower upper))) ↔
        ∀ a ∈ lower, a ∈ D.domain) ∧
      ((∀ a ∈ lower, a ∈ D.domain) → D.mass lower upper = 1 →
        (∀ w, w ∈ d.lower ∨ w ∈ d.upper → ∃ t, w.operand .density = .ok t) →
        ∀ (x : ℝ) (v : Value Extended), v.IsReal x →
          (d.family.support.meaning d.params).Admits x →
          ∃ p, d.logPdf v = .ok p ∧
            BoundDist.logPdf { d with lower := none, upper := none } v = .ok p) := by
  refine ⟨exists_hasDistribution hf htruncatable, fun d ps D lower upper hD hd hmass => ?_⟩
  obtain ⟨names, density, g, hlength, hlogPdf, hlogCdf, hcomputed⟩ := hD.exists_routines hd.family
  have hiff := Distribution.logMass_eq_iff hD.regular hcomputed hmass
  refine ⟨?_, fun hdomain hone hoperand x v hv hadmits => ?_⟩
  · obtain ⟨v, hv, hvalue, -⟩ := logNormalizer_eq hd hlength hlogCdf
    rw [← hiff]
    constructor
    · rintro ⟨w, hw, hreal⟩
      cases hv.symm.trans hw
      exact Tensor.scalar_inj (Except.ok.inj (hvalue.symm.trans hreal))
    · intro h
      exact ⟨v, hv, hvalue.trans (by rw [h])⟩
  · have hzero :
        Distribution.logMass (fun x => g (.real x) (ps.map .real)) lower upper = .real 0 := by
      rw [hiff.mpr hdomain, hone, Real.log_one]
    obtain ⟨hlow, hhigh⟩ := hD.regular.inside_of_mass hone
    obtain ⟨hsupportLower, hsupportUpper⟩ := hD.support hd.family hd.params
    have huntruncated : Truncates { d with lower := none, upper := none } name ps none none :=
      ⟨hd.family, hd.params, .none, .none⟩
    refine ⟨_,
      logPdf_eq hv hd hlength hlogPdf hlogCdf hzero hoperand (fun a ha => ?_) fun b hb => ?_,
      logPdf_eq hv huntruncated hlength hlogPdf hlogCdf ?_ (by simp) (by simp) (by simp)⟩
    · obtain ⟨c, hc, hac⟩ := hlow a ha
      exact hac.trans (hadmits.lower_le hsupportLower hc)
    · obtain ⟨c, hc, hcb⟩ := hhigh b hb
      exact (hadmits.le_upper hsupportUpper hc).trans hcb
    · exact Extended.scalar_zero

/-- Bounds outside the unit interval do not change the uniform distribution on it. -/
theorem logNormalizer_uniform :
    ∃ f, (Registry.builtin : Registry Extended).families.get? "dunif" = some f ∧
      ∃ D, HasDistribution "dunif" [0, 1] D ∧
        Truncates ⟨f, [.scalar (.real 0), .scalar (.real 1)], some (.scalar (.real (-1))),
          some (.real (.real 2))⟩ "dunif" [0, 1] (some (-1)) (some 2) ∧
        D.mass (some (-1)) (some 2) = 1 ∧
        (∃ v, logNormalizer ⟨f, [.scalar (.real 0), .scalar (.real 1)],
          some (.scalar (.real (-1))), some (.real (.real 2))⟩ = .ok v ∧ v.IsReal (Real.log 1)) ∧
        ∃ p, logPdf ⟨f, [.scalar (.real 0), .scalar (.real 1)], some (.scalar (.real (-1))),
            some (.real (.real 2))⟩ (.scalar (.real (1 / 2))) = .ok p ∧
          logPdf ⟨f, [.scalar (.real 0), .scalar (.real 1)], none, none⟩
            (.scalar (.real (1 / 2))) = .ok p := by
  obtain ⟨f, hf, htruncatable, hsupport⟩ : ∃ f,
      (Registry.builtin : Registry Extended).families.get? "dunif" = some f ∧
        f.truncatable = true ∧ f.support =
          Builtin.dependentSupport ["a", "b"] fun ps => ⟨ps[0]?, ps[1]?⟩ := ⟨_, rfl, rfl, rfl⟩
  have hD := HasDistribution.uniform (zero_lt_one (α := ℝ))
  have hd : Truncates ⟨f, [.scalar (.real 0), .scalar (.real 1)], some (.scalar (.real (-1))),
      some (.real (.real 2))⟩ "dunif" [0, 1] (some (-1)) (some 2) :=
    ⟨hf, .cons rfl (.cons rfl .nil), .some rfl, .some rfl⟩
  refine ⟨f, hf, _, hD, hd, ?_⟩
  have hmass : Distribution.mass
      { cdf := fun x => if x < 0 then 0 else if 1 < x then 1 else (x - 0) / (1 - 0)
        lower := some 0
        upper := some 1 } (some (-1)) (some 2) = 1 := by
    norm_num [Distribution.mass]
  obtain ⟨hiff, hdensity⟩ := (logNormalizer_iff hf htruncatable).2 _ _ _ _ _ hD hd
    (by rw [hmass]; exact one_pos)
  have hdomain : ∀ a ∈ some (-1 : ℝ), a ∈ (Set.univ : Set ℝ) := fun a _ => Set.mem_univ a
  have hnormalizer := hiff.mpr hdomain
  rw [hmass] at hnormalizer
  refine ⟨hmass, hnormalizer, ?_⟩
  refine hdensity hdomain hmass ?_ _ _ rfl ?_
  · rintro w (⟨⟨⟩⟩ | ⟨⟨⟩⟩)
    · exact ⟨_, rfl⟩
    · exact ⟨_, rfl⟩
  · rw [hsupport]
    refine ⟨?_, ?_⟩
    · rintro _ ⟨⟩ a ha
      obtain rfl : a = 0 := ha.unique rfl
      norm_num
    · rintro _ ⟨⟩ b hb
      obtain rfl : b = 1 := hb.unique rfl
      norm_num

/-- The exponential distribution truncated at -1, below its support, has no normalizer, although
nothing is cut off. -/
theorem not_normalized_exponential :
    ∃ f, (Registry.builtin : Registry Extended).families.get? "dexp" = some f ∧
      ∃ D, HasDistribution "dexp" [1] D ∧
        Truncates ⟨f, [.scalar (.real 1)], some (.scalar (.real (-1))), none⟩ "dexp" [1]
          (some (-1)) none ∧
        D.mass (some (-1)) none = 1 ∧
        logNormalizer ⟨f, [.scalar (.real 1)], some (.scalar (.real (-1))), none⟩ =
          .ok (.scalar nan) ∧
        ¬ (Value.scalar nan).IsReal (Real.log (D.mass (some (-1)) none)) := by
  have hexp : (1 : ℝ) - Real.exp (-1 * -1) < 0 := by
    rw [sub_neg, Real.one_lt_exp_iff]
    norm_num
  have hcdf : Scalar.log (-Scalar.expMinusOne (-real 1 * real (-1))) = nan := by
    rw [neg_real, mul_real, log_neg_expMinusOne, logReal_neg hexp]
  refine ⟨_, rfl, _, .exponential one_pos, ⟨rfl, .cons rfl .nil, .some rfl, .none⟩, ?_, ?_, ?_⟩
  · norm_num [Distribution.mass]
  · change Except.ok (Value.scalar (Scalar.logOnePlus (-Scalar.exp
      (Scalar.log (-Scalar.expMinusOne (-real 1 * real (-1))))))) = _
    rw [hcdf]
    rfl
  · intro h
    cases Tensor.scalar_inj (Except.ok.inj h)

end BoundDist

end BayesGraph
