import BayesGraph.Proofs.DistributionFunctions
import BayesGraph.Proofs.Jacobian
import BayesGraph.Proofs.Renumbering

/-!
# The two modes of evaluation

A vector of coordinates can be evaluated on the unconstrained scale, or as values in the supports.
Where the first evaluation succeeds, its constrained values are a vector for the second one. Both
evaluations visit the nodes in the same order, and at every node they find the same values: a
parameter that is placed at its own constrained value contributes what it contributed before, but no
derivative (`contribution_untransformed`). So the evaluations have the same values, the same
log-prior and the same log-likelihood, and their log-densities differ by the log-Jacobian.
-/

set_option autoImplicit false

namespace BayesGraph

open Outcome

/-- Zero is neutral in additions: nothing is lost when it is added, it is not flushed, and what is
flushed stays as it is. Nothing is asked of other sums. -/
structure NeutralZero (α : Type) [Scalar α] : Prop where
  add_zero : ∀ x : α, x + Scalar.ofInt 0 = x
  flush_zero : Scalar.flush (Scalar.ofInt 0 : α) = Scalar.ofInt 0
  flush_flush : ∀ x : α, Scalar.flush (Scalar.flush x) = Scalar.flush x

/-- Among the extended reals zero is neutral. -/
theorem Extended.neutralZero : NeutralZero Extended where
  add_zero x := by
    rw [Extended.scalar_zero]
    cases x with
    | real x => rw [Extended.add_real, add_zero]
    | nan | bottom | top => rfl
  flush_zero := rfl
  flush_flush _ := rfl

namespace Value

variable {α : Type} [Scalar α]

/-- A known real behind an array of a density counts as an array without dimensions. -/
theorem add_density_real (t : Tensor α) (x : α) :
    (array .density t).add (.real x) = (array .density t).add (.array .density (.scalar x)) := rfl

/-- In place of an entry, a sum may have the entry as it is flushed. -/
theorem add_density_flush (hneutral : NeutralZero α) (s t : Tensor α) :
    (array .density (s.map Scalar.flush)).add (.array .density t) =
      (array .density s).add (.array .density t) := by
  have hbinary : (fun x y : α => Rules.binary .density (· + ·) (Scalar.flush x) y) =
      Rules.binary .density (· + ·) := by
    funext x y
    simp only [Rules.binary, Rules.settle, hneutral.flush_flush]
  rw [add_density, add_density, zip, zip, Tensor.zipWith?_map_left, hbinary]
  rfl

/-- Adding zero to an array flushes its entries. -/
theorem add_density_zero (hneutral : NeutralZero α) (t : Tensor α) :
    (array .density t).add (.real (Scalar.ofInt 0)) =
      .ok (.array .density (t.map Scalar.flush)) := by
  rw [add_density_real, add_density_eq_ok_iff_settled]
  refine ⟨_, ?_, rfl⟩
  rw [Tensor.zipWith?_scalar_right]
  simp only [Rules.binary, Rules.settle, hneutral.flush_zero, hneutral.add_zero,
    hneutral.flush_flush]

/-- A sum to which a term is added, and the same sum without it: the first is the second one and
the term. -/
theorem add_of_add_zero (hneutral : NeutralZero α) {p term v w : Value α} {t u : Tensor α}
    (hp : p.IsDensity ∨ p = .real (Scalar.ofInt 0))
    (hterm : term = .real (Scalar.ofInt 0) ∨ term.IsDensity) (hv : p.add term = .ok v)
    (hw : p.add (.real (Scalar.ofInt 0)) = .ok w) (ht : v.toTensor = .ok t)
    (hu : w.toTensor = .ok u) :
    (array .density u).add term = .ok (.array .density t) := by
  rcases hp with ⟨s, rfl⟩ | rfl
  · rw [add_density_zero hneutral] at hw
    cases hw
    cases hu
    obtain ⟨s', rfl⟩ := add_isDensity hv (Or.inl ⟨_, rfl⟩)
    cases ht
    rcases hterm with rfl | ⟨r, rfl⟩
    · rw [add_density_real, add_density_flush hneutral]
      exact hv
    · rw [add_density_flush hneutral]
      exact hv
  · have hw : .real (Scalar.ofInt 0 + Scalar.ofInt 0) = w := Except.ok.inj hw
    rw [hneutral.add_zero] at hw
    subst hw
    cases hu
    rcases hterm with rfl | ⟨s, rfl⟩
    · have hv : .real (Scalar.ofInt 0 + Scalar.ofInt 0) = v := Except.ok.inj hv
      rw [hneutral.add_zero] at hv
      subst hv
      cases ht
      have hzero : (Tensor.scalar (Scalar.ofInt 0 : α)).map Scalar.flush =
          .scalar (Scalar.ofInt 0) := congrArg Tensor.scalar hneutral.flush_zero
      rw [add_density_zero hneutral, hzero]
    · rw [add_real_density] at hv
      obtain ⟨s', rfl⟩ := add_isDensity hv (Or.inl ⟨_, rfl⟩)
      cases ht
      exact hv

end Value

namespace Graph

/-! ## Sums of terms -/

section Sums

variable {α : Type} [Scalar α] {g : Graph} {r : Registry α} {mode : EvaluationMode}
  {theta : List α} {ev : Evaluation α}

/-- A sum of terms of a density is zero without any terms, or else an array of a density. -/
theorem addTerms_isDensity {terms : List (Value α)} {sum total : Value α}
    (hterms : ∀ t ∈ terms, t.IsDensity) (h : addTerms sum terms = .ok total) :
    total = sum ∨ total.IsDensity := by
  induction terms generalizing sum with
  | nil =>
    cases h
    exact Or.inl rfl
  | cons t terms ih =>
    unfold addTerms at h
    rw [List.foldlM_cons, bind_eq_ok] at h
    obtain ⟨mid, hmid, h⟩ := h
    have hdensity : mid.IsDensity := Value.add_isDensity hmid (Or.inr (hterms t List.mem_cons_self))
    rcases ih (fun u hu => hterms u (List.mem_cons_of_mem t hu)) h with rfl | htotal
    · exact Or.inr hdensity
    · exact Or.inr htotal

/-- A sum of terms of a density over nodes is zero or an array of a density. -/
theorem IsSum.isDensity {is : List Nat} {term : Node → Value α → Prop} {total : Value α}
    (h : g.IsSum is term total) (hterm : ∀ n t, term n t → t.IsDensity) :
    total = .real (Scalar.ofInt 0) ∨ total.IsDensity := by
  obtain ⟨terms, hterms, htotal⟩ := h
  refine addTerms_isDensity (fun t ht => ?_) htotal
  obtain ⟨i, -, n, -, hn⟩ := exists_of_forall₂ hterms.flip ht
  exact hterm n t hn

/-- The sum of the log-prior and the log-likelihood is the sum of two zeros or an array of a
density, and the log-Jacobian is zero or an array of a density. -/
theorem sums_of_evaluate (hg : g.WellFormed) (h : g.evaluate r mode theta = .ok ev) :
    (∀ p, ev.logPrior.add ev.logLikelihood = .ok p →
        p.IsDensity ∨ p = .real (Scalar.ofInt 0 + Scalar.ofInt 0)) ∧
      (ev.logJacobian = .real (Scalar.ofInt 0) ∨ ev.logJacobian.IsDensity) := by
  have haccounts := Accounts.of_evaluate hg h
  have hpdf : ∀ n t, LogPdfAt r mode.calls (g.valuation ev.slots) n t → t.IsDensity := by
    rintro n t ⟨law, d, x, -, -, -, ht⟩
    exact BoundDist.logPdf_isDensity ht
  refine ⟨fun p hp => ?_, haccounts.jacobian.isDensity ?_⟩
  · rcases haccounts.prior.isDensity hpdf with hprior | hprior
    · rcases haccounts.likelihood.isDensity hpdf with hlikelihood | hlikelihood
      · rw [hprior, hlikelihood] at hp
        exact Or.inr (Except.ok.inj hp).symm
      · exact Or.inl (Value.add_isDensity hp (Or.inr hlikelihood))
    · exact Or.inl (Value.add_isDensity hp (Or.inl hprior))
  · rintro n t ⟨law, d, y, f, -, -, -, -, ht⟩
    exact Bijection.logJacobian_isDensity f.map ht ⟨.scalar y, rfl⟩

/-- A density without the entry that stands for zero is the sum of an evaluation, as it is. -/
theorem toTensor_of_logDensity {transformed : Bool} {calls : CallMode} {t : Tensor α}
    (h : (g.logDensity r transformed calls theta).collect.1 = .ok t)
    (hfinite : Scalar.bottom ∉ t.entries) :
    ∃ ev v, g.evaluate r { transformed, calls } theta = .ok ev ∧ ev.logDensity = .ok v ∧
      v.toTensor = .ok t := by
  rw [logDensity_result] at h
  split at h
  · next v hv =>
    obtain ⟨ev, hev, hv⟩ := bind_eq_ok.mp hv
    simp only [bind_eq_ok, pure_eq_ok, lift_eval_eq_ok] at h
    obtain ⟨s, hs, rfl⟩ := h
    have hkept : replaceNaN s = s := by
      refine Tensor.eq_of_entries rfl ?_
      refine (List.map_congr_left fun x hx => ?_).trans (List.map_id s.entries)
      -- a replaced entry would be one that stands for zero
      by_cases hnan : Scalar.isNaN x = true
      · have hmem : Scalar.bottom ∈ (replaceNaN s).entries :=
          List.mem_map.mpr ⟨x, hx, if_pos hnan⟩
        exact absurd hmem hfinite
      · exact if_neg hnan
    rw [hkept]
    exact ⟨ev, v, hev, hv, hs⟩
  · split at h
    · cases h
      exact absurd (List.mem_singleton.mpr rfl) hfinite
    · cases h

end Sums

/-! ## The vector of constrained values -/

section Vector

variable {α : Type} [Scalar α] {g : Graph} {r : Registry α} {mode : EvaluationMode}
  {theta : List α} {ev : Evaluation α}

/-- The value of a parameter is an array of a density. -/
theorem isDensity_of_parameter (hg : g.WellFormed) (h : g.evaluate r mode theta = .ok ev)
    {i : Nat} {n : Node} (hn : g.nodes[i]? = some n) (hparameter : n.role.isParameter = true)
    {x : Value α} (hx : ev.slots i = some x) : x.IsDensity := by
  have hequation := (Accounts.of_evaluate hg h).solves.equations n (List.mem_of_getElem? hn)
  unfold NodeEquation at hequation
  cases hrole : n.role with
  | observed value dist => simp [hrole, Role.isParameter] at hparameter
  | logical e => simp [hrole, Role.isParameter] at hparameter
  | parameter law =>
    rw [hrole] at hequation
    obtain ⟨y, d, x', -, -, hplace, hvalue⟩ := hequation
    rw [(hg.at_node theta ev.slots hn).2, hx, Option.some.injEq] at hvalue
    subst hvalue
    split at hplace
    · obtain ⟨f, -, hback⟩ := hplace
      exact Bijection.backward_isDensity f.map hback ⟨.scalar y, rfl⟩
    · exact hplace ▸ ⟨.scalar y, rfl⟩

/-- Where the values of all parameters are numbers, they make a vector: the coordinate of every
parameter is its own value. -/
theorem exists_vector (hg : g.WellFormed) (h : g.evaluate r mode theta = .ok ev)
    (hscalar : ∀ p ∈ ev.parameters, p.2.shape = []) :
    ∃ xs : List α, xs.length = g.dimension ∧
      ev.parameters = g.parameterNames.zip (xs.map Value.scalar) ∧
      ∀ i n, g.nodes[i]? = some n → n.role.isParameter = true →
        ∃ x, g.coordinate? xs i = some x ∧ ev.slots i = some (.scalar x) := by
  have hlisted := parameters_of_evaluate hg h
  have hnumber : ∀ p ∈ ev.parameters, ∃ x, p.2 = Value.scalar x := by
    intro p hp
    obtain ⟨i, hi, -, hslot⟩ := exists_of_forall₂ hlisted.flip hp
    obtain ⟨k, hk⟩ := List.getElem?_of_mem hi
    obtain ⟨n, law, hn, hrole⟩ := hg.parameter_of_coordinate hk
    refine (isDensity_of_parameter hg h hn ?_ hslot).exists_scalar (hscalar p hp)
    rw [hrole]
    rfl
  have hinhabited : Nonempty α := ⟨Scalar.ofInt 0⟩
  choose! entry hentry using hnumber
  refine ⟨ev.parameters.map entry, ?_, List.zip_of_prod ?_ ?_, fun i n hn hparameter => ?_⟩
  · rw [List.length_map]
    exact hlisted.length_eq.symm
  · exact (filterMap_of_forall₂ (hlisted.imp fun _ _ hip => hip.1)).symm
  · rw [List.map_map]
    exact List.map_congr_left fun p hp => hentry p hp
  · have hi : i ∈ g.parameters := (hg.mem_parameters_iff hn).mpr hparameter
    obtain ⟨k, hk, hki⟩ := List.getElem_of_mem hi
    have hkp : k < ev.parameters.length := hlisted.length_eq ▸ hk
    have hslot := (List.forall₂_iff_get.mp hlisted).2 k hk hkp
    have hentryk := hentry ev.parameters[k] (List.getElem_mem hkp)
    refine ⟨entry ev.parameters[k], ?_, ?_⟩
    · rw [hg.coordinate?_eq (hki ▸ List.getElem?_eq_getElem hk)]
      simp [hkp]
    · rw [← hentryk, ← hki]
      exact hslot.2

end Vector

/-! ## The simulation -/

section Modes

variable {α : Type} [Scalar α] {g : Graph} {r : Registry α} {mode : EvaluationMode}
  {theta : List α} {ev : Evaluation α}

/-- At its own value as the coordinate, a node contributes the same, but no derivative. -/
theorem contribution_untransformed {env : Environment α} {coordinate coordinate' : Option α}
    {n : Node} {c : Contribution α} (h : contribution r mode env coordinate n = .ok c)
    (hcoordinate : n.role.isParameter = true →
      ∃ x, coordinate' = some x ∧ c.value = .scalar x) :
    contribution r { mode with transformed := false } env coordinate' n =
      .ok { c with jacobian := [] } := by
  rw [contribution_eq_ok_iff] at h ⊢
  cases h with
  | logical hrole hv => exact .logical hrole hv
  | observed hrole hterms => exact .observed hrole hterms
  | @parameter law y d x slopes terms hrole hy hd hx hterms =>
    obtain ⟨z, rfl, hz⟩ := hcoordinate (by rw [hrole]; rfl)
    have hplace : x = .scalar z := hz
    subst hplace
    exact .parameter hrole rfl hd rfl hterms

/-- Evaluated at its constrained values, a graph has the same values and the same sums, but no
Jacobian. -/
theorem evaluate_untransformed (hg : g.WellFormed) (h : g.evaluate r mode theta = .ok ev)
    {xs : List α} (hxs : ∀ i n, g.nodes[i]? = some n → n.role.isParameter = true →
      ∃ x, g.coordinate? xs i = some x ∧ ev.slots i = some (.scalar x)) :
    g.evaluate r { mode with transformed := false } xs =
      .ok { ev with logJacobian := .real (Scalar.ofInt 0) } := by
  refine evaluate_of_contributions hg h (f := fun c => { c with jacobian := [] }) (fun _ => rfl)
    (fun i n c hn hslot hc => ?_) rfl fun cs hsum => ⟨?_, ?_, ?_, ?_⟩
  · refine contribution_untransformed hc fun hparameter => ?_
    obtain ⟨x, hx, hvalue⟩ := hxs i n hn hparameter
    exact ⟨x, hx, Option.some.inj (hslot.symm.trans hvalue)⟩
  · simpa only [List.flatMap_map] using hsum.parameters
  · simpa only [List.flatMap_map] using hsum.prior
  · simpa only [List.flatMap_map] using hsum.likelihood
  · rw [flatMap_map_eq_nil fun _ => rfl]
    rfl

/-- Where zero is neutral, the log-densities of two evaluations that differ in the Jacobian only
differ by it. -/
theorem logDensity_untransformed (hneutral : NeutralZero α) (hg : g.WellFormed)
    {calls : CallMode} {xs : List α}
    (h : g.evaluate r { transformed := true, calls } theta = .ok ev)
    (h' : g.evaluate r { transformed := false, calls } xs =
      .ok { ev with logJacobian := .real (Scalar.ofInt 0) })
    {t u : Tensor α} (ht : (g.logDensity r true calls theta).collect.1 = .ok t)
    (hu : (g.logDensity r false calls xs).collect.1 = .ok u)
    (htfinite : Scalar.bottom ∉ t.entries) (hufinite : Scalar.bottom ∉ u.entries) :
    (Value.array .density u).add ev.logJacobian = .ok (.array .density t) := by
  obtain ⟨ev₁, v, hev₁, hv, ht⟩ := toTensor_of_logDensity ht htfinite
  obtain ⟨ev₂, w, hev₂, hw, hu⟩ := toTensor_of_logDensity hu hufinite
  rw [h, Except.ok.injEq] at hev₁
  rw [h', Except.ok.injEq] at hev₂
  subst hev₁
  subst hev₂
  obtain ⟨p, hp, hv⟩ := bind_eq_ok.mp hv
  obtain ⟨q, hq, hw⟩ := bind_eq_ok.mp hw
  cases hp.symm.trans hq
  obtain ⟨hsum, hjacobian⟩ := sums_of_evaluate hg h
  have hsum := hsum p hp
  rw [hneutral.add_zero] at hsum
  exact Value.add_of_add_zero hneutral hsum hjacobian hv hw ht hu

/-- The two modes of evaluation agree up to the Jacobian. Let an evaluation of a built graph at
unconstrained coordinates succeed, with numbers as the values of the parameters. These values, in
the order of the parameters, are a vector `xs`. The evaluation of the graph at this vector as values
in the supports succeeds too, with the same values of all nodes, the same log-prior and the same
log-likelihood. So, where zero is neutral in additions, the log-density at the coordinates is the
log-density at the vector plus the log-Jacobian, wherever neither of them is the logarithm of zero.
The graph may have been built over other scalars. -/
theorem untransformed_of_build {β : Type} [Scalar β] {m : Model} {bindings : Table String Datum}
    {r₀ : Registry β} (hg : (build m bindings r₀).collect.1 = .ok g)
    (htransformed : mode.transformed = true) (h : g.evaluate r mode theta = .ok ev)
    (hscalar : ∀ p ∈ ev.parameters, p.2.shape = []) :
    ∃ xs : List α, xs.length = g.dimension ∧
      ev.parameters = g.parameterNames.zip (xs.map Value.scalar) ∧
      g.evaluate r { mode with transformed := false } xs =
        .ok { ev with logJacobian := .real (Scalar.ofInt 0) } ∧
      (mode.score = true → NeutralZero α →
        ∀ t u, (g.logDensity r true mode.calls theta).collect.1 = .ok t →
          (g.logDensity r false mode.calls xs).collect.1 = .ok u →
          Scalar.bottom ∉ t.entries → Scalar.bottom ∉ u.entries →
          (Value.array .density u).add ev.logJacobian = .ok (.array .density t)) := by
  have hwf := wellFormed_of_build hg
  obtain ⟨xs, hlength, hvector, hcoordinates⟩ := exists_vector hwf h hscalar
  have huntransformed := evaluate_untransformed hwf h hcoordinates
  refine ⟨xs, hlength, hvector, huntransformed, ?_⟩
  intro hscore hneutral t u ht hu htfinite hufinite
  obtain ⟨transformed, score, calls⟩ := mode
  obtain rfl : transformed = true := htransformed
  obtain rfl : score = true := hscore
  exact logDensity_untransformed hneutral hwf h huntransformed ht hu htfinite hufinite

end Modes

/-! ## A run with bounds that depend on a parameter -/

section Intervals

open Builtin

/-- The values and the sums at any coordinates `y` and `z`: the first parameter is the logistic
function of `y`, and that of `z` is scaled to the interval above the first parameter. -/
theorem evaluate_intervalGraph_scored (y z : Extended) :
    let a := Scalar.logistic y
    let s := a + Scalar.ofInt 1
    let slope := Scalar.ofInt 1 / (s - a)
    let b := (Scalar.logistic z - -a / (s - a)) / slope
    ∃ ev : Evaluation Extended,
      intervalGraph.evaluate (Registry.builtin : Registry Extended) {} [y, z] = .ok ev ∧
      ev.parameters = [(⟨"a", []⟩, .scalar a), (⟨"b", []⟩, .scalar b)] ∧
      ev.logPrior = .scalar (Scalar.ofInt 0 +
        restrict (Scalar.le (num 0) a && Scalar.le a (num 1)) (-Scalar.log (num 1 - num 0)) +
        restrict (Scalar.le a b && Scalar.le b s) (-Scalar.log (s - a))) ∧
      ev.logLikelihood = .real (Scalar.ofInt 0) ∧
      ev.logJacobian = .scalar (Scalar.ofInt 0 +
        (Scalar.logLogistic y + Scalar.logLogistic (-y)) +
        (Scalar.logLogistic z + Scalar.logLogistic (-z) +
          -Scalar.log (Scalar.abs slope) * Scalar.ofInt 1)) :=
  ⟨_, rfl, rfl, rfl, rfl, rfl⟩

/-- At zero the first parameter is one half, the second one is one, and both densities are one. -/
theorem evaluate_intervalGraph_zero :
    ∃ ev : Evaluation Extended,
      intervalGraph.evaluate (Registry.builtin : Registry Extended) {} [.real 0, .real 0] = .ok ev ∧
      ev.parameters =
        [(⟨"a", []⟩, .scalar (.real (1 / 2))), (⟨"b", []⟩, .scalar (.real 1))] ∧
      ev.logPrior = .scalar (.real 0) ∧ ev.logLikelihood = .real (Scalar.ofInt 0) ∧
      ev.logJacobian = .scalar (.real (4 * Real.log (1 / 2))) := by
  obtain ⟨ev, hev, hparameters, hprior, hlikelihood, hjacobian⟩ :=
    evaluate_intervalGraph_scored (.real 0) (.real 0)
  have hone : (Scalar.ofInt 1 : Extended) = .real 1 := by rw [Extended.ofInt_eq, Int.cast_one]
  have ha : Scalar.logistic (Extended.real 0) = .real (1 / 2) := by
    show Extended.real (Real.sigmoid 0) = _
    rw [Real.sigmoid_zero, one_div]
  have hwidth : Extended.real (1 / 2) + .real 1 - .real (1 / 2) = .real 1 := by
    rw [Extended.add_real, Extended.sub_real, add_sub_cancel_left]
  have hslope : Extended.real 1 / .real 1 = .real 1 := by
    rw [Extended.div_real one_ne_zero, div_one]
  have hb : (Extended.real (1 / 2) - -.real (1 / 2) / .real 1) / .real 1 = .real 1 := by
    rw [Extended.neg_real, Extended.div_real one_ne_zero, Extended.sub_real,
      Extended.div_real one_ne_zero]
    norm_num
  have hlog : Scalar.log (Extended.real 1) = .real 0 := by
    rw [Extended.log_real, Extended.logReal_pos one_pos, Real.log_one]
  have habs : Scalar.abs (Extended.real 1) = .real 1 := congrArg Extended.real abs_one
  have hhalf : Scalar.logLogistic (Extended.real 0) = .real (Real.log (1 / 2)) := by
    rw [Extended.logLogistic_real, Real.sigmoid_zero, ← one_div,
      Extended.logReal_pos one_half_pos]
  simp only [hone, ha, hwidth, hslope, hb, Extended.num_eq] at hparameters hprior hjacobian
  refine ⟨ev, hev, hparameters, hprior.trans ?_, hlikelihood, hjacobian.trans ?_⟩
  · have hlower : ((0 : ℤ) : ℝ) ≤ 1 / 2 ∧ (1 : ℝ) / 2 ≤ (1 : ℤ) := by norm_num
    have hupper : (1 : ℝ) / 2 ≤ 1 ∧ (1 : ℝ) ≤ 1 / 2 + 1 := by norm_num
    have hfirst : Extended.real ((1 : ℤ) : ℝ) - .real ((0 : ℤ) : ℝ) = .real 1 := by
      rw [Extended.sub_real, Int.cast_one, Int.cast_zero, sub_zero]
    simp only [hfirst, hlog, restrict, Extended.add_real, Extended.le_real, hlower, hupper,
      decide_true, Bool.and_true, if_true, Extended.neg_real, Extended.scalar_zero, neg_zero,
      add_zero]
  · simp only [habs, hlog, hhalf, Extended.neg_real, neg_zero, Extended.scalar_zero,
      Extended.add_real, Extended.mul_real]
    ring_nf

/-- A real is the log-density, as it is. -/
theorem logDensity_of_real {g : Graph} {r : Registry Extended} {transformed : Bool}
    {calls : CallMode} {theta : List Extended} {ev : Evaluation Extended} {x : ℝ}
    (hev : g.evaluate r { transformed, calls } theta = .ok ev)
    (h : ev.logDensity = .ok (.scalar (.real x))) :
    (g.logDensity r transformed calls theta).collect.1 = .ok (.scalar (.real x)) := by
  rw [logDensity_result, hev, ok_bind, h]
  show Except.ok (replaceNaN (Tensor.scalar (Extended.real x))) = _
  refine congrArg (Except.ok ∘ Tensor.scalar) (if_neg ?_)
  rw [Extended.isNaN_real]
  exact Bool.false_ne_true

/-- At zero the graph with a parameter between 0 and 1 and one between bounds that depend on the
first is evaluated, densities included, and evaluated again at its constrained values, where both
densities are one. Both log-densities are finite, and they differ by the log-Jacobian. -/
theorem untransformed_intervalModel :
    ∃ (ev : Evaluation Extended) (xs : List Extended),
      (build intervalModel Table.empty (Registry.builtin : Registry Dual)).collect.1 =
        .ok intervalGraph ∧
      intervalGraph.evaluate (Registry.builtin : Registry Extended) {} [.real 0, .real 0] =
        .ok ev ∧
      (∀ p ∈ ev.parameters, p.2.shape = []) ∧ NeutralZero Extended ∧
      ev.parameters = [⟨"a", []⟩, ⟨"b", []⟩].zip (xs.map Value.scalar) ∧
      intervalGraph.evaluate (Registry.builtin : Registry Extended) { transformed := false } xs =
        .ok { ev with logJacobian := .real (Scalar.ofInt 0) } ∧
      (intervalGraph.logDensity (Registry.builtin : Registry Extended) true .direct
        [.real 0, .real 0]).collect.1 = .ok (.scalar (.real (4 * Real.log (1 / 2)))) ∧
      (intervalGraph.logDensity (Registry.builtin : Registry Extended) false .direct
        xs).collect.1 = .ok (.scalar (.real 0)) ∧
      (Value.array .density (.scalar (.real 0))).add ev.logJacobian =
        .ok (.array .density (.scalar (.real (4 * Real.log (1 / 2))))) := by
  obtain ⟨ev, hev, hparameters, hprior, hlikelihood, hjacobian⟩ := evaluate_intervalGraph_zero
  have hscalar : ∀ p ∈ ev.parameters, p.2.shape = [] := by
    rw [hparameters]
    simp only [List.forall_mem_cons]
    exact ⟨rfl, rfl, fun _ hp => absurd hp List.not_mem_nil⟩
  obtain ⟨xs, -, hvector, huntransformed, hdensity⟩ :=
    untransformed_of_build build_intervalModel rfl hev hscalar
  have hposterior : ev.logPrior.add ev.logLikelihood = .ok (.scalar (.real 0)) := by
    rw [hprior, hlikelihood]
    show Except.ok (Value.scalar (Extended.real 0 + Scalar.ofInt 0)) = _
    rw [Extended.scalar_zero, Extended.add_real, add_zero]
  have ht := logDensity_of_real hev (x := 4 * Real.log (1 / 2)) <| by
    rw [Evaluation.logDensity, hposterior, ok_bind, hjacobian]
    show Except.ok (Value.scalar (Extended.real 0 + Extended.real _)) = _
    rw [Extended.add_real, zero_add]
  have hu := logDensity_of_real huntransformed (x := 0) <| by
    rw [Evaluation.logDensity, hposterior, ok_bind]
    show Except.ok (Value.scalar (Extended.real 0 + Scalar.ofInt 0)) = _
    rw [Extended.scalar_zero, Extended.add_real, add_zero]
  have hfinite : ∀ x : ℝ, Scalar.bottom ∉ (Tensor.scalar (Extended.real x)).entries := by
    intro x
    simp [Tensor.scalar]
  exact ⟨ev, xs, build_intervalModel, hev, hscalar, Extended.neutralZero, hvector,
    huntransformed, ht, hu,
    hdensity rfl Extended.neutralZero _ _ ht hu (hfinite _) (hfinite _)⟩

end Intervals

end Graph

end BayesGraph
