import BayesGraph.Proofs.ExtendedReals
import BayesGraph.Proofs.Renumbering

/-!
# Invalid points have no density

A density is a sum of three sums, and its terms can be infinite or no numbers. In the extended reals
a term that is the least number or no number is never lost: however the terms are ordered and
bracketed, the sum is then the least number or no number, and the last step makes the least number
of both. The same value stands for an error of the arithmetic, so no density is ever no number.
-/

set_option autoImplicit false

namespace BayesGraph

open Outcome

/-- Scalars add up to a total in some order and with some brackets. -/
inductive AddsUp {α : Type} [Add α] : List α → α → Prop
  | single (x : α) : AddsUp [x] x
  | add {xs ys : List α} {a b : α} : AddsUp xs a → AddsUp ys b → AddsUp (xs ++ ys) (a + b)
  | perm {xs ys : List α} {a : α} : xs.Perm ys → AddsUp xs a → AddsUp ys a

/-- An invalid term makes every total invalid. -/
theorem AddsUp.isInvalid {xs : List Extended} {total x : Extended} (h : AddsUp xs total)
    (hx : x ∈ xs) (hinvalid : x.IsInvalid) : total.IsInvalid := by
  induction h with
  | single y =>
    rw [List.mem_singleton] at hx
    exact hx ▸ hinvalid
  | @add xs ys a b _ _ ihx ihy =>
    rcases List.mem_append.mp hx with hx | hx
    · exact (ihx hx).add_right b
    · rw [ExactScalar.add_comm]
      exact (ihy hx).add_right a
  | perm hperm _ ih => exact ih (hperm.mem_iff.mpr hx)

namespace Value

/-- In the extended reals nothing is flushed. -/
theorem Holds.add {v w : Value Extended} {x y : Extended} (hv : v.Holds x) (hw : w.Holds y) :
    ∃ s, v.add w = .ok s ∧ s.Holds (x + y) := by
  rcases hv with rfl | rfl
  · rcases hw with rfl | rfl
    · exact ⟨real (x + y), rfl, Or.inl rfl⟩
    · exact ⟨scalar (x + y), rfl, Or.inr rfl⟩
  · rcases hw with rfl | rfl
    · exact ⟨scalar (x + y), rfl, Or.inr rfl⟩
    · exact ⟨scalar (x + y), rfl, Or.inr rfl⟩

/-- Different scalars are different values. -/
theorem scalar_injective : Function.Injective (scalar : Extended → Value Extended) :=
  fun _ _ h => Tensor.scalar_inj (Value.array.inj h).2

/-- Values that are scalars one by one are scalars together. -/
theorem exists_scalars {ts : List (Value Extended)} (h : ∀ t ∈ ts, ∃ x, t = scalar x) :
    ∃ xs : List Extended, ts = xs.map scalar := by
  induction ts with
  | nil => exact ⟨[], rfl⟩
  | cons t ts ih =>
    obtain ⟨x, rfl⟩ := h t List.mem_cons_self
    obtain ⟨xs, rfl⟩ := ih fun u hu => h u (List.mem_cons_of_mem _ hu)
    exact ⟨x :: xs, rfl⟩

end Value

namespace Graph

section Terms

variable {α : Type} [Scalar α] {g : Graph} {r : Registry α} {mode : EvaluationMode}
  {theta : List α} {V : Valuation α} {n : Node} {s t : Value α}

/-- A node contributes the value to the density at a vector: the logarithm of its density or mass,
or the logarithm of the derivative of its transform. -/
def IsTerm (g : Graph) (r : Registry α) (mode : EvaluationMode) (theta : List α)
    (V : Valuation α) (t : Value α) : Prop :=
  ∃ n ∈ g.nodes, LogPdfAt r mode.calls V n t ∨
    (mode.transformed = true ∧ n.role.isParameter = true ∧
      LogJacobianAt r mode.calls (g.coordinateOf theta) V n t)

/-- A term of the log-density is that of a stochastic node. -/
theorem LogPdfAt.isStochastic {calls : CallMode} (h : LogPdfAt r calls V n t) :
    n.isStochastic = true := by
  obtain ⟨law, d, x, hlaw, -⟩ := h
  simp [Node.isStochastic, hlaw]

/-- Every term is computed by a density. -/
theorem IsTerm.isDensity (h : g.IsTerm r mode theta V t) : t.IsDensity := by
  obtain ⟨n, -, h⟩ := h
  rcases h with ⟨law, d, x, -, -, -, ht⟩ | ⟨-, -, law, d, y, f, -, -, -, -, ht⟩
  · exact BoundDist.logPdf_isDensity ht
  · exact Bijection.logJacobian_isDensity f.map ht ⟨.scalar y, rfl⟩

omit [Scalar α] in
/-- The terms of some nodes are those of each of them, and no others. -/
theorem mem_terms_iff {is : List Nat} {term : Node → Value α → Prop}
    {terms : List (Value α)}
    (h : List.Forall₂ (fun i t => ∃ n, g.nodes[i]? = some n ∧ term n t) is terms)
    (hunique : ∀ n s t, term n s → term n t → s = t) :
    t ∈ terms ↔ ∃ i ∈ is, ∃ n, g.nodes[i]? = some n ∧ term n t := by
  constructor
  · exact fun ht => exists_of_forall₂ h.flip ht
  · rintro ⟨i, hi, n, hn, ht⟩
    obtain ⟨s, hs, n', hn', hterm⟩ := exists_of_forall₂ h hi
    rw [hn, Option.some.injEq] at hn'
    subst hn'
    exact hunique n s t hterm ht ▸ hs

/-- The selected nodes are those with the property. -/
theorem mem_select {p : Node → Bool} (hg : g.WellFormed) {i : Nat} {n : Node}
    (hn : g.nodes[i]? = some n) : i ∈ g.select p ↔ p n = true := by
  unfold select
  rw [List.mem_filter, hn, Option.any_some]
  exact and_iff_right (hg.mem_order hn)

/-- The terms of the three sums of an evaluation, one list behind the other, are all the terms of
the graph. -/
theorem Accounts.exists_terms (hg : g.WellFormed) {ev : Evaluation α} (hscore : mode.score = true)
    (h : g.Accounts r mode theta ev) :
    ∃ prior likelihood jacobian,
      addTerms (.real (Scalar.ofInt 0)) prior = .ok ev.logPrior ∧
      addTerms (.real (Scalar.ofInt 0)) likelihood = .ok ev.logLikelihood ∧
      addTerms (.real (Scalar.ofInt 0)) jacobian = .ok ev.logJacobian ∧
      ∀ t, t ∈ prior ++ likelihood ++ jacobian ↔
        g.IsTerm r mode theta (g.valuation ev.slots) t := by
  obtain ⟨prior, hprior, hpriorSum⟩ := h.prior
  obtain ⟨likelihood, hlikelihood, hlikelihoodSum⟩ := h.likelihood
  obtain ⟨jacobian, hjacobian, hjacobianSum⟩ := h.jacobian
  refine ⟨prior, likelihood, jacobian, hpriorSum, hlikelihoodSum, hjacobianSum, fun t => ?_⟩
  rw [List.mem_append, List.mem_append,
    mem_terms_iff hprior fun _ _ _ => LogPdfAt.unique,
    mem_terms_iff hlikelihood fun _ _ _ => LogPdfAt.unique,
    mem_terms_iff hjacobian fun _ _ _ => LogJacobianAt.unique]
  constructor
  · rintro ((⟨i, hi, n, hn, ht⟩ | ⟨i, hi, n, hn, ht⟩) | ⟨i, hi, n, hn, ht⟩)
    · exact ⟨n, List.mem_of_getElem? hn, Or.inl ht⟩
    · exact ⟨n, List.mem_of_getElem? hn, Or.inl ht⟩
    · have hselected := (mem_select hg hn).mp hi
      rw [Bool.and_eq_true] at hselected
      exact ⟨n, List.mem_of_getElem? hn, Or.inr ⟨hselected.1, hselected.2, ht⟩⟩
  · rintro ⟨n, hmem, ht⟩
    obtain ⟨i, hn⟩ := List.getElem?_of_mem hmem
    rcases ht with ht | ⟨htransformed, hparameter, ht⟩
    · left
      have hstochastic := ht.isStochastic
      cases hrole : n.role with
      | logical e => simp [Node.isStochastic, hrole, Role.dist?] at hstochastic
      | parameter law =>
        refine Or.inl ⟨i, (mem_select hg hn).mpr ?_, n, hn, ht⟩
        simp [hscore, hrole, Role.isParameter]
      | observed value dist =>
        refine Or.inr ⟨i, (mem_select hg hn).mpr ?_, n, hn, ht⟩
        simp [hscore, hrole, Role.isObserved, hstochastic]
    · refine Or.inr ⟨i, (mem_select hg hn).mpr ?_, n, hn, ht⟩
      rw [htransformed, hparameter]
      rfl

end Terms

/-- Scalar terms are added to a scalar sum one by one. -/
theorem addTerms_scalars {xs ys : List Extended} {a : Extended} {sum total : Value Extended}
    (hsum : sum.Holds a) (hadds : AddsUp ys a)
    (h : addTerms sum (xs.map Value.scalar) = .ok total) :
    ∃ z, total.Holds z ∧ AddsUp (ys ++ xs) z := by
  induction xs generalizing sum a ys with
  | nil =>
    cases h
    exact ⟨a, hsum, by simpa using hadds⟩
  | cons x xs ih =>
    unfold addTerms at h
    rw [List.map_cons, List.foldlM_cons, bind_eq_ok] at h
    obtain ⟨mid, hmid, h⟩ := h
    obtain ⟨s, hs, hholds⟩ := hsum.add (Or.inr rfl : (Value.scalar x).Holds x)
    rw [hs, Except.ok.injEq] at hmid
    subst hmid
    obtain ⟨z, hz, hadded⟩ := ih hholds (hadds.add (.single x)) h
    exact ⟨z, hz, by simpa using hadded⟩

/-- What becomes of an invalid total. -/
theorem replaceNaN_of_isInvalid {x : Extended} (h : x.IsInvalid) :
    replaceNaN (.scalar x) = .scalar .bottom := by
  rcases h with rfl | rfl
  · rfl
  · show Tensor.scalar (if Scalar.isNaN Extended.nan then Scalar.bottom else Extended.nan) = _
    simp

/-- What replaces no number is a number. -/
theorem nan_not_mem_replaceNaN (t : Tensor Extended) : Extended.nan ∉ (replaceNaN t).entries := by
  intro hmem
  obtain ⟨x, -, hx⟩ := List.mem_map.mp hmem
  split at hx
  · simp at hx
  · next hnumber =>
    rw [hx] at hnumber
    exact hnumber rfl

/-- The density of a graph whose terms are scalars is one of the totals of these terms and of the
zeros with which the sums start, after the last step. -/
theorem exists_logDensity_of_scalars {g : Graph} (hg : g.WellFormed) {r : Registry Extended}
    {transformed : Bool} {calls : CallMode} {theta : List Extended} {ev : Evaluation Extended}
    (hev : g.evaluate r { transformed, calls } theta = .ok ev)
    (hscalar : ∀ t, g.IsTerm r { transformed, calls } theta (g.valuation ev.slots) t →
      t.shape = []) :
    ∃ terms total, AddsUp terms total ∧
      (∀ x, x ∈ terms ↔ x = .real 0 ∨
        g.IsTerm r { transformed, calls } theta (g.valuation ev.slots) (.scalar x)) ∧
      (g.logDensity r transformed calls theta).collect.1 = .ok (replaceNaN (.scalar total)) := by
  obtain ⟨prior, likelihood, jacobian, hprior, hlikelihood, hjacobian, hterms⟩ :=
    (Accounts.of_evaluate hg hev).exists_terms hg rfl
  have hscalars : ∀ t ∈ prior ++ likelihood ++ jacobian, ∃ x, t = Value.scalar x := by
    intro t ht
    have hterm := (hterms t).mp ht
    exact hterm.isDensity.exists_scalar (hscalar t hterm)
  simp only [List.mem_append, or_assoc] at hscalars
  obtain ⟨ps, rfl⟩ := Value.exists_scalars fun t ht => hscalars t (Or.inl ht)
  obtain ⟨ls, rfl⟩ := Value.exists_scalars fun t ht => hscalars t (Or.inr (Or.inl ht))
  obtain ⟨js, rfl⟩ := Value.exists_scalars fun t ht => hscalars t (Or.inr (Or.inr ht))
  have hzero : (Value.real (Scalar.ofInt 0)).Holds (Extended.real 0) := by
    rw [Extended.scalar_zero]
    exact Or.inl rfl
  obtain ⟨p, hp, hpadds⟩ := addTerms_scalars hzero (.single _) hprior
  obtain ⟨l, hl, hladds⟩ := addTerms_scalars hzero (.single _) hlikelihood
  obtain ⟨j, hj, hjadds⟩ := addTerms_scalars hzero (.single _) hjacobian
  obtain ⟨posterior, hposterior, hpl⟩ := hp.add hl
  obtain ⟨v, hv, hholds⟩ := hpl.add hj
  refine ⟨_, _, (hpadds.add hladds).add hjadds, fun x => ?_, ?_⟩
  · simp only [← hterms, List.mem_append, List.mem_singleton,
      List.mem_map_of_injective Value.scalar_injective]
    tauto
  · have htotal : ev.logDensity = .ok v := by
      unfold Evaluation.logDensity
      rw [hposterior, ok_bind, hv]
    rw [logDensity_result, hev, ok_bind, htotal]
    dsimp only
    rw [hholds.toTensor]
    rfl

/-- Invalid points have no density, in the extended reals and for every graph that a build returned.
An error of the arithmetic gives the least number. If all terms of the density are scalars, the
density is their sum in some order, and one term that is the least number or no number makes it the
least number, whatever the other terms are; the same holds of every other order and bracketing of
terms. And no density has an entry that is no number. -/
theorem logDensity_of_invalid {β : Type} [Scalar β] {m : Model} {bindings : Table String Datum}
    {r₀ : Registry β} {g : Graph} (hg : (build m bindings r₀).collect.1 = .ok g)
    (r : Registry Extended) (transformed : Bool) (calls : CallMode) (theta : List Extended) :
    (∀ e, g.evaluate r { transformed, calls } theta = .error e → e.isArithmetic = true →
      (g.logDensity r transformed calls theta).collect.1 = .ok (.scalar .bottom)) ∧
    (∀ ev, g.evaluate r { transformed, calls } theta = .ok ev →
      (∀ t, g.IsTerm r { transformed, calls } theta (g.valuation ev.slots) t → t.shape = []) →
      (∃ terms total, AddsUp terms total ∧
        (∀ x, x ∈ terms ↔ x = .real 0 ∨
          g.IsTerm r { transformed, calls } theta (g.valuation ev.slots) (.scalar x)) ∧
        (g.logDensity r transformed calls theta).collect.1 = .ok (replaceNaN (.scalar total))) ∧
      ∀ x : Extended, x = .bottom ∨ x = .nan →
        g.IsTerm r { transformed, calls } theta (g.valuation ev.slots) (.scalar x) →
        (g.logDensity r transformed calls theta).collect.1 = .ok (.scalar .bottom) ∧
        ∀ terms total, x ∈ terms → AddsUp terms total →
          replaceNaN (.scalar total) = .scalar .bottom) ∧
    ∀ t, (g.logDensity r transformed calls theta).collect.1 = .ok t → Extended.nan ∉ t.entries := by
  refine ⟨fun e he harithmetic => ?_, fun ev hev hscalar => ⟨?_, fun x hx hterm => ?_⟩,
    fun t ht => ?_⟩
  · rw [logDensity_result, he, error_bind]
    dsimp only
    rw [if_pos harithmetic, Extended.scalar_bottom]
  · exact exists_logDensity_of_scalars (wellFormed_of_build hg) hev hscalar
  · have habsorbed : ∀ terms total, x ∈ terms → AddsUp terms total →
        replaceNaN (.scalar total) = .scalar .bottom :=
      fun terms total hmem hadds => replaceNaN_of_isInvalid (hadds.isInvalid hmem hx)
    obtain ⟨terms, total, hadds, hmem, hresult⟩ :=
      exists_logDensity_of_scalars (wellFormed_of_build hg) hev hscalar
    rw [habsorbed terms total ((hmem x).mpr (Or.inr hterm)) hadds] at hresult
    exact ⟨hresult, habsorbed⟩
  · rw [logDensity_result] at ht
    split at ht
    · simp only [bind_eq_ok, pure_eq_ok] at ht
      obtain ⟨s, -, rfl⟩ := ht
      exact nan_not_mem_replaceNaN s
    · split at ht
      · rw [Except.ok.injEq] at ht
        rw [← ht, Extended.scalar_bottom]
        simp [Tensor.scalar]
      · cases ht

/-! ## A coordinate that is no number -/

/-- One parameter with a normal distribution. -/
def drawModel : Model where
  statements :=
    [.sample [] (.var (.text "x"))
      (.dist { name := .text "dnorm", params := [.literal (.int 0), .literal (.int 1)] })]

/-- The graph of the model. -/
def drawGraph : Graph where
  nodes :=
    [{ id := ⟨"x", []⟩
       role := .parameter
        { name := .text "dnorm", params := [.literal (.int 0), .literal (.int 1)] }
       statement := some "x ~ dnorm(0, 1)" }]
  order := [0]
  parameters := [0]

/-- The model is built without data, as the graph. -/
theorem build_drawModel :
    (build drawModel Table.empty (Registry.builtin : Registry Dual)).collect.1 =
      .ok drawGraph := by
  have hdata : Bindings.flatten Table.empty = .ok ⟨Table.empty, ⟨[]⟩⟩ := rfl
  have hconstants : Folding.constants (Registry.builtin : Registry Dual).foldingFunctions
      drawModel.statements ⟨Table.empty, ⟨[]⟩⟩ = .ok Table.empty := by
    unfold Folding.constants Folding.saturate
    rfl
  rw [build_of_constants hdata hconstants]
  with_unfolding_all rfl

/-- At a coordinate that is no number, the term of the parameter is no number. -/
theorem normalLogPdf_nan (mu sigma : Extended) :
    Builtin.normalLogPdf Extended.nan mu sigma = .nan := by
  have hsub : Extended.nan - mu = .nan := by cases mu <;> rfl
  have hmul : Extended.nan * Extended.nan = Extended.nan := rfl
  have hdiv : ∀ x : Extended, Extended.nan / x = .nan := by
    intro x
    cases x <;> rfl
  have hadd : ∀ x : Extended, x + Extended.nan = .nan := by
    intro x
    cases x <;> rfl
  unfold Builtin.normalLogPdf
  rw [hsub, hmul]
  dsimp only
  rw [hdiv, hadd, hdiv]

/-- The model is built, and there the density is the least number. -/
theorem logDensity_drawModel :
    ∃ ev, (build drawModel Table.empty (Registry.builtin : Registry Dual)).collect.1 =
        .ok drawGraph ∧
      drawGraph.evaluate (Registry.builtin : Registry Extended) {} [.nan] = .ok ev ∧
      drawGraph.IsTerm (Registry.builtin : Registry Extended) {} [.nan]
        (drawGraph.valuation ev.slots) (.scalar .nan) ∧
      (drawGraph.logDensity (Registry.builtin : Registry Extended) true .direct [.nan]).collect.1 =
        .ok (.scalar .bottom) := by
  obtain ⟨ev, hev, hvalue⟩ : ∃ ev, drawGraph.evaluate (Registry.builtin : Registry Extended) {}
      [.nan] = .ok ev ∧ drawGraph.valuation ev.slots ⟨"x", []⟩ = some (.scalar .nan) :=
    ⟨_, rfl, rfl⟩
  have hpdf : ∀ t, LogPdfAt (Registry.builtin : Registry Extended) .direct
      (drawGraph.valuation ev.slots) (drawGraph.nodes[0]) t ↔ t = .scalar .nan := by
    intro t
    constructor
    · rintro ⟨law, d, x, hlaw, hd, hx, ht⟩
      cases hlaw
      cases hd
      cases hvalue.symm.trans hx
      cases ht
      exact congrArg Value.scalar (normalLogPdf_nan _ _)
    · rintro rfl
      exact ⟨_, _, _, rfl, rfl, hvalue, congrArg (Except.ok ∘ Value.scalar) (normalLogPdf_nan _ _)⟩
  have hterm : drawGraph.IsTerm (Registry.builtin : Registry Extended) {} [.nan]
      (drawGraph.valuation ev.slots) (.scalar .nan) :=
    ⟨drawGraph.nodes[0], List.mem_cons_self, Or.inl ((hpdf _).mpr rfl)⟩
  have hscalar : ∀ t, drawGraph.IsTerm (Registry.builtin : Registry Extended) {} [.nan]
      (drawGraph.valuation ev.slots) t → t.shape = [] := by
    rintro t ⟨n, hn, ht⟩
    obtain rfl : n = drawGraph.nodes[0] := List.mem_singleton.mp hn
    rcases ht with ht | ⟨-, -, law, d, y, f, hlaw, hd, hy, hf, ht⟩
    · rw [(hpdf t).mp ht]
      rfl
    · cases hlaw
      cases hd
      cases hf
      cases ht
      rfl
  obtain ⟨-, hvalid, -⟩ := logDensity_of_invalid build_drawModel
    (Registry.builtin : Registry Extended) true .direct [.nan]
  obtain ⟨hresult, -⟩ := (hvalid ev hev hscalar).2 .nan (Or.inr rfl) hterm
  exact ⟨ev, build_drawModel, hev, hterm, hresult⟩

end Graph

end BayesGraph
