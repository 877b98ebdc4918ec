import BayesGraph.Proofs.ExactEvaluation
import BayesGraph.Proofs.ExtendedIntegers
import BayesGraph.Proofs.ObservedGraph
import BayesGraph.Proofs.UntransformedEvaluation

/-!
# Evaluations of observed graphs

A graph and the graph in which some of its parameters are observed have the same nodes in the same
order. Evaluate the first one at coordinates that have the observed values, and the second one at
the other coordinates. At every step the values that have been computed stand for the same numbers,
and both sums together have the same terms, some of which have moved from the prior to the
likelihood (`Evaluation.Renders`). The induction is along the order of the nodes
(`concur_foldlM_visit`); a step evaluates the expressions of one node beside such values. In exact
arithmetic the densities depend on the terms only, and not on where they are
(`Evaluation.SumsTo.logDensity_eq_ok_iff`).
-/

set_option autoImplicit false

namespace BayesGraph

open Outcome

/-- Every domain error is an error of the arithmetic. -/
theorem EvalError.isDomain_eq_false {e : EvalError} (h : e.isArithmetic = false) :
    e.isDomain = false := by
  cases e <;> first | rfl | cases h

/-- The number of a value in the data. -/
noncomputable def Number.exact : Number Double → Extended
  | .int n => Scalar.ofInt n
  | .real x => Scalar.ofDouble x

/-- The value of an observed node stands for the number in the data. -/
theorem Number.reads_exact (n : Number Double) :
    Value.Reads (.number (n.map Scalar.ofDouble)) n.exact := by
  cases n with
  | int n => exact .int n
  | real x => exact .real _

/-! ## Sums -/

namespace Value

section Errors

variable {α : Type} [Scalar α] {sum t : Value α}

/-- Terms whose shapes do not fit are an error, but not of the arithmetic. -/
theorem failsWith_add (hsum : sum.IsDensity ∨ ∃ x, sum = .real x) (ht : t.IsDensity) :
    FailsWith (fun e : EvalError => e.isArithmetic = false) (sum.add t) := by
  obtain ⟨u, rfl⟩ := ht
  obtain ⟨s, hs⟩ : ∃ s, sum.add (.array .density u) =
      (array .density s).add (.array .density u) := by
    rcases hsum with ⟨s, rfl⟩ | ⟨x, rfl⟩
    · exact ⟨s, rfl⟩
    · exact ⟨.scalar x, add_real_density x u⟩
  intro e he
  rw [hs, add_density] at he
  unfold zip at he
  split at he
  · cases he
  · split at he
    all_goals
      cases he
      rfl

/-- Sums of arrays fail only with an error that is no arithmetic one. -/
theorem failsWith_addTerms {terms : List (Value α)} (hsum : sum.IsDensity ∨ ∃ x, sum = .real x)
    (hterms : ∀ t ∈ terms, t.IsDensity) :
    FailsWith (fun e : EvalError => e.isArithmetic = false) (Graph.addTerms sum terms) := by
  unfold Graph.addTerms
  induction terms generalizing sum with
  | nil => exact nofun
  | cons t terms ih =>
    have ht := hterms t List.mem_cons_self
    rw [List.foldlM_cons]
    refine (failsWith_add hsum ht).bind_of_ok fun mid hmid => ?_
    exact ih (Or.inl (add_isDensity hmid (Or.inr ht)))
      fun u hu => hterms u (List.mem_cons_of_mem t hu)

end Errors

variable {p l : Value Extended} {terms : List (Value Extended)}

/-- Zero is neutral on both sides of a sum. -/
theorem add_zero_extended (hp : p = .real (Scalar.ofInt 0) ∨ p.IsDensity) :
    p.add (.real (Scalar.ofInt 0)) = .ok p := by
  rcases hp with rfl | ⟨t, rfl⟩
  · show Except.ok (Value.real (Scalar.ofInt 0 + Scalar.ofInt 0)) = _
    rw [Extended.zero_add_eq]
  · rw [add_density_zero Extended.neutralZero]
    exact congrArg (Except.ok ∘ Value.array .density)
      (Tensor.eq_of_entries rfl (List.map_id' t.entries))

/-- Zero can be added in front without effect. -/
theorem zero_add_extended (t : Tensor Extended) :
    (real (Scalar.ofInt 0)).add (.array .density t) = .ok (.array .density t) := by
  rw [add_real_density, add_density_eq_ok_iff]
  refine ⟨t, ?_, rfl⟩
  rw [Tensor.zipWith?_scalar]
  simp only [Extended.zero_add_eq, Option.some.injEq]
  exact Tensor.eq_of_entries rfl (List.map_id' _)

/-- The sum of two sums is the sum of all terms. -/
theorem add_sums {prior likelihood : List (Value Extended)}
    (hterms : ∀ t ∈ prior ++ likelihood, t.IsDensity)
    (hp : Graph.addTerms (.real (Scalar.ofInt 0)) prior = .ok p)
    (hl : Graph.addTerms (.real (Scalar.ofInt 0)) likelihood = .ok l) (v : Value Extended) :
    p.add l = .ok v ↔ Graph.addTerms (.real (Scalar.ofInt 0)) (likelihood ++ prior) = .ok v := by
  have hafter : Graph.addTerms (.real (Scalar.ofInt 0)) (likelihood ++ prior) = .ok v ↔
      Graph.addTerms l prior = .ok v := by
    rw [Graph.addTerms_append_eq_ok]
    constructor
    · rintro ⟨mid, hmid, h⟩
      cases hl.symm.trans hmid
      exact h
    · exact fun h => ⟨l, hl, h⟩
  rw [hafter]
  rcases Graph.addTerms_isDensity (fun t ht => hterms t (List.mem_append_right _ ht)) hl
    with rfl | ⟨t, rfl⟩
  · rw [hp, add_zero_extended
      (Graph.addTerms_isDensity (fun t ht => hterms t (List.mem_append_left _ ht)) hp)]
  · -- the second sum is added last, or first: this is one term in another place
    have hfirst : Graph.addTerms (.real (Scalar.ofInt 0)) ([array .density t] ++ prior) = .ok v ↔
        Graph.addTerms (array .density t) prior = .ok v := by
      unfold Graph.addTerms
      rw [List.singleton_append, List.foldlM_cons, zero_add_extended, ok_bind]
    have hlast : Graph.addTerms (.real (Scalar.ofInt 0)) (prior ++ [array .density t]) = .ok v ↔
        p.add (array .density t) = .ok v := by
      rw [Graph.addTerms_append_eq_ok]
      constructor
      · rintro ⟨mid, hmid, h⟩
        cases hp.symm.trans hmid
        simpa [Graph.addTerms] using h
      · exact fun h => ⟨p, hp, by simpa [Graph.addTerms] using h⟩
    have hdensity : ∀ u ∈ prior ++ [array .density t], u.IsDensity := by
      intro u hu
      rcases List.mem_append.mp hu with hu | hu
      · exact hterms u (List.mem_append_left _ hu)
      · exact ⟨t, List.mem_singleton.mp hu⟩
    rw [← hfirst, ← hlast]
    exact ⟨addTerms_perm List.perm_append_comm hdensity,
      addTerms_perm List.perm_append_comm
        fun u hu => hdensity u (List.perm_append_comm.mem_iff.mp hu)⟩

end Value

namespace Evaluation

/-- The sums of an evaluation have these terms together, and no derivative has been added. -/
structure SumsTo (ev : Evaluation Extended) (terms : List (Value Extended)) : Prop where
  densities : ∀ t ∈ terms, t.IsDensity
  parts : ∃ prior likelihood, (prior ++ likelihood).Perm terms ∧
    Graph.addTerms (.real (Scalar.ofInt 0)) prior = .ok ev.logPrior ∧
    Graph.addTerms (.real (Scalar.ofInt 0)) likelihood = .ok ev.logLikelihood
  jacobian : ev.logJacobian = .real (Scalar.ofInt 0)

variable {ev ev' : Evaluation Extended} {terms : List (Value Extended)}

/-- At the start the sums have no terms. -/
theorem sumsTo_start : (start : Evaluation Extended).SumsTo [] where
  densities := nofun
  parts := ⟨[], [], .refl _, rfl, rfl⟩
  jacobian := rfl

/-- Without a derivative, the density is the sum of the two other parts. -/
theorem SumsTo.logDensity_eq (h : ev.SumsTo terms) :
    ev.logDensity = ev.logPrior.add ev.logLikelihood := by
  obtain ⟨prior, likelihood, hperm, hp, hl⟩ := h.parts
  have hdensities : ∀ t ∈ prior ++ likelihood, t.IsDensity :=
    fun t ht => h.densities t (hperm.mem_iff.mp ht)
  unfold logDensity
  rw [h.jacobian]
  cases hsum : ev.logPrior.add ev.logLikelihood with
  | error e => rfl
  | ok w =>
    exact Value.add_zero_extended (Graph.addTerms_isDensity
      (fun t ht => hdensities t (List.perm_append_comm.mem_iff.mp ht))
      ((Value.add_sums hdensities hp hl w).mp hsum))

/-- The density is the sum of all terms, wherever they are. -/
theorem SumsTo.logDensity_eq_ok_iff (h : ev.SumsTo terms) (v : Value Extended) :
    ev.logDensity = .ok v ↔ Graph.addTerms (.real (Scalar.ofInt 0)) terms = .ok v := by
  rw [h.logDensity_eq]
  obtain ⟨prior, likelihood, hperm, hp, hl⟩ := h.parts
  have hperm' : (likelihood ++ prior).Perm terms := List.perm_append_comm.trans hperm
  rw [Value.add_sums (fun t ht => h.densities t (hperm.mem_iff.mp ht)) hp hl]
  exact ⟨Value.addTerms_perm hperm' fun t ht => h.densities t (hperm'.mem_iff.mp ht),
    Value.addTerms_perm hperm'.symm h.densities⟩

/-- The sum of the three sums fails only with an error that is no arithmetic one. -/
theorem SumsTo.failsWith_logDensity (h : ev.SumsTo terms) :
    FailsWith (fun e : EvalError => e.isArithmetic = false) ev.logDensity := by
  rw [h.logDensity_eq]
  obtain ⟨prior, likelihood, hperm, hp, hl⟩ := h.parts
  have hdensities : ∀ t ∈ prior ++ likelihood, t.IsDensity :=
    fun t ht => h.densities t (hperm.mem_iff.mp ht)
  have hprior := Graph.addTerms_isDensity (fun t ht => hdensities t (List.mem_append_left _ ht)) hp
  rcases Graph.addTerms_isDensity (fun t ht => hdensities t (List.mem_append_right _ ht)) hl
    with hzero | hdensity
  · rw [hzero, Value.add_zero_extended hprior]
    exact .ok _
  · exact Value.failsWith_add (hprior.symm.imp_right fun h => ⟨_, h⟩) hdensity

/-- Two evaluations have computed values that stand for the same numbers, and added the same terms,
if not to the same sums. -/
structure Renders (ev ev' : Evaluation Extended) : Prop where
  slots : ∀ i, Option.Rel Value.Renders (ev.slots i) (ev'.slots i)
  terms : ∃ terms, ev.SumsTo terms ∧ ev'.SumsTo terms

/-- At the start both evaluations have the same numbers. -/
theorem renders_start : Renders start start where
  slots _ := .none
  terms := ⟨[], sumsTo_start, sumsTo_start⟩

end Evaluation

namespace Graph

/-! ## Contributions -/

section Contributions

variable {α : Type} [Scalar α]

/-- Adds the contribution of node `i` to an evaluation, but no derivative. -/
def Contribution.addTo (c : Contribution α) (i : Nat) (ev : Evaluation α) :
    Except EvalError (Evaluation α) := do
  let likelihood ← addTerms ev.logLikelihood c.likelihood
  let prior ← addTerms ev.logPrior c.prior
  return { ev with
    slots := ev.slots.put i c.value
    parameters := ev.parameters ++ c.parameters
    logPrior := prior
    logLikelihood := likelihood }

/-- Where coordinates are values in the supports, a visit adds the contribution of the node. -/
theorem visit_untransformed {g : Graph} {r : Registry α} {mode : EvaluationMode} {theta : List α}
    {ev : Evaluation α} {i : Nat} {n : Node} (hmode : mode.transformed = false)
    (hn : g.nodes[i]? = some n) :
    g.visit r mode theta ev i =
      contribution r mode (g.environment r mode.calls ev.slots) (g.coordinate? theta i) n >>=
        fun c => c.addTo i ev := by
  unfold visit contribution Contribution.addTo
  rw [hn]
  dsimp only
  cases n.role with
  | logical e => simp only [bind_assoc, pure_bind, addTerms_nil, ok_bind, List.append_nil]
  | observed value dist =>
    simp only [visitObserved, bind_assoc, pure_bind, addTerms_nil, ok_bind, List.append_nil]
  | parameter law =>
    cases g.coordinate? theta i with
    | none => rfl
    | some y => simp [visitParameter, locate, hmode, bind_assoc]

end Contributions

variable {r : Registry Extended} {calls : CallMode}
  {l l' : Identity → Except EvalError (Value Extended)}

/-- The value stands for the same numbers, and the terms are the same, if not in the same sum. -/
structure Contribution.Renders (c c' : Contribution Extended) : Prop where
  value : c.value.Renders c'.value
  densities : ∀ t ∈ c.prior ++ c.likelihood, t.IsDensity
  terms : c'.prior ++ c'.likelihood = c.prior ++ c.likelihood

/-- Terms that are added are among the terms of the sums; they fail to fit, but this is no domain
error. -/
theorem Contribution.addTo_cases {c : Contribution Extended} {ev : Evaluation Extended}
    {terms : List (Value Extended)} (h : ev.SumsTo terms)
    (hc : ∀ t ∈ c.prior ++ c.likelihood, t.IsDensity) (i : Nat) :
    (∃ next, c.addTo i ev = .ok next ∧ next.slots = ev.slots.put i c.value ∧
      next.SumsTo (terms ++ (c.prior ++ c.likelihood))) ∨
    ∃ e, c.addTo i ev = .error e ∧ e.isDomain = false := by
  obtain ⟨prior, likelihood, hperm, hp, hl⟩ := h.parts
  have hsum : ∀ {ts : List (Value Extended)} {total : Value Extended},
      (∀ t ∈ ts, t ∈ terms) → addTerms (.real (Scalar.ofInt 0)) ts = .ok total →
      total.IsDensity ∨ ∃ x, total = .real x := by
    intro ts total hts htotal
    rcases addTerms_isDensity (fun t ht => h.densities t (hts t ht)) htotal with rfl | hdensity
    · exact Or.inr ⟨_, rfl⟩
    · exact Or.inl hdensity
  have hfails : FailsWith (fun e : EvalError => e.isArithmetic = false) (c.addTo i ev) := by
    unfold addTo
    refine FailsWith.bind (Value.failsWith_addTerms ?_ fun t ht => ?_) fun _ =>
      FailsWith.bind (Value.failsWith_addTerms ?_ fun t ht => ?_) fun _ => .pure _
    · exact hsum (fun t ht => hperm.mem_iff.mp (List.mem_append_right _ ht)) hl
    · exact hc t (List.mem_append_right _ ht)
    · exact hsum (fun t ht => hperm.mem_iff.mp (List.mem_append_left _ ht)) hp
    · exact hc t (List.mem_append_left _ ht)
  cases hresult : c.addTo i ev with
  | error e => exact Or.inr ⟨e, rfl, EvalError.isDomain_eq_false (hfails e hresult)⟩
  | ok next =>
    refine Or.inl ⟨next, rfl, ?_⟩
    unfold addTo at hresult
    simp only [bind_eq_ok, pure_eq_ok] at hresult
    obtain ⟨likelihood', hl', prior', hp', rfl⟩ := hresult
    refine ⟨rfl, ?_, ⟨prior ++ c.prior, likelihood ++ c.likelihood, ?_,
      addTerms_append_eq_ok.mpr ⟨_, hp, hp'⟩, addTerms_append_eq_ok.mpr ⟨_, hl, hl'⟩⟩,
      h.jacobian⟩
    · intro t ht
      exact (List.mem_append.mp ht).elim (h.densities t) (hc t)
    · refine List.Perm.trans ?_ (hperm.append_right _)
      rw [List.append_assoc, List.append_assoc]
      refine List.Perm.append_left prior ?_
      rw [← List.append_assoc, ← List.append_assoc]
      exact List.perm_append_comm.append_right _

/-- Contributions that stand for the same numbers, added to such evaluations, give such evaluations.
-/
theorem concur_addTo {c c' : Contribution Extended} {ev ev' : Evaluation Extended}
    (hc : c.Renders c') (hev : ev.Renders ev') (i : Nat) :
    Concur Evaluation.Renders (c.addTo i ev) (c'.addTo i ev') := by
  obtain ⟨terms, hterms, hterms'⟩ := hev.terms
  rcases Contribution.addTo_cases hterms hc.densities i
    with ⟨next, hok, hslots, hsums⟩ | ⟨e, he, hdomain⟩
  · rcases Contribution.addTo_cases hterms' (hc.terms ▸ hc.densities) i
      with ⟨next', hok', hslots', hsums'⟩ | ⟨e, he, hdomain⟩
    · rw [hok, hok']
      refine .ok ⟨fun j => ?_, _, hsums, hc.terms ▸ hsums'⟩
      rw [hslots, hslots']
      unfold Slots.put
      split
      · exact .some hc.value
      · exact hev.slots j
    · rw [he]
      exact .right hdomain _
  · rw [he]
    exact .left hdomain _

/-- The term of a distribution at a value. -/
theorem concur_densityTerms {mode : EvaluationMode} {d d' : BoundDist Extended}
    {x x' : Value Extended} (hd : d.Renders d') (hx : x.Renders x') :
    Concur (fun ts ts' => ts = ts' ∧ ∀ t ∈ ts, t.IsDensity) (densityTerms mode d x)
      (densityTerms mode d' x') := by
  unfold densityTerms
  split
  · refine (BoundDist.concur_logPdf hd hx).bind fun t t' ht _ heq => .ok ?_
    subst heq
    refine ⟨rfl, fun u hu => ?_⟩
    rw [List.mem_singleton.mp hu]
    exact BoundDist.logPdf_isDensity ht
  · exact .ok ⟨rfl, nofun⟩

/-- The slots of related evaluations are looked up alike in graphs with the same numbers. -/
theorem concur_lookup {g g' : Graph} (hindex : g'.index? = g.index?) {slots slots' : Slots Extended}
    (hslots : ∀ i, Option.Rel Value.Renders (slots i) (slots' i)) (id : Identity) :
    Concur Value.Renders ((g.environment r calls slots).lookup id)
      ((g'.environment r calls slots').lookup id) := by
  unfold environment
  dsimp only
  rw [hindex]
  cases g.index? id with
  | none => exact .error _
  | some i =>
    have hslot := hslots i
    rw [Option.bind_some, Option.bind_some]
    generalize slots i = x, slots' i = y at hslot
    cases hslot with
    | none => exact .error _
    | some h => exact .ok h

/-- A node and the observed node contribute alike beside values that stand for the same numbers. -/
theorem concur_contribution {data : Bindings} {n : Node} {mode : EvaluationMode}
    {y y' : Option Extended} (hmode : mode.transformed = false) (hscore : mode.score = true)
    (hl : ∀ id, Concur Value.Renders (l id) (l' id))
    (hexact : ∀ e ∈ (n.observe data).role.parts, e.IsExact ⟨.density, calls, r.functions, l'⟩)
    (hgiven : n.role.isParameter = true → ∀ v, data.values.get? n.id = some v → y = some v.exact)
    (hkept : n.role.isParameter = true → data.values.get? n.id = none → y' = y) :
    Concur Contribution.Renders (contribution r mode ⟨.density, calls, r.functions, l⟩ y n)
      (contribution r mode ⟨.density, calls, r.functions, l'⟩ y' (n.observe data)) := by
  rcases Node.observe_cases data n with ⟨law, v, hrole, hv, h⟩ | ⟨hnone, h⟩
  · -- a term moves from the prior to the likelihood
    rw [h] at hexact ⊢
    rw [hgiven (by rw [hrole]; rfl) v hv]
    unfold contribution observedTerms locate
    simp only [hrole, hmode, hscore, if_true, Bool.false_eq_true, if_false, bind_assoc, pure_bind]
    refine (concur_bindDist hl law hexact).bind fun d d' _ _ hd => ?_
    refine (concur_densityTerms hd (.reads v.reads_exact)).bind fun ts ts' _ _ hts => .ok ?_
    obtain ⟨rfl, hts⟩ := hts
    exact ⟨.reads v.reads_exact, by simpa using hts, by simp⟩
  · rw [h] at hexact ⊢
    unfold contribution
    cases hrole : n.role with
    | logical e =>
      rw [hrole] at hexact
      refine (Expr.concur_eval hl e (hexact e (List.mem_singleton_self e))).bind
        fun v v' _ _ hv => .ok ⟨hv, nofun, rfl⟩
    | observed value dist =>
      have hx : Value.Renders (α := Extended) (.number (value.map Scalar.ofDouble))
          (.number (value.map Scalar.ofDouble)) := .same (Value.isDense_number _)
      have hterms : Concur (fun ts ts' => ts = ts' ∧ ∀ t ∈ ts, t.IsDensity)
          (observedTerms r ⟨.density, calls, r.functions, l⟩ mode
            (.number (value.map Scalar.ofDouble)) dist)
          (observedTerms r ⟨.density, calls, r.functions, l'⟩ mode
            (.number (value.map Scalar.ofDouble)) dist) := by
        unfold observedTerms
        cases dist with
        | none => exact .ok ⟨rfl, nofun⟩
        | some law =>
          rw [hrole] at hexact
          simp only [hscore, if_true]
          exact (concur_bindDist hl law hexact).bind fun d d' _ _ hd => concur_densityTerms hd hx
      refine hterms.bind fun ts ts' _ _ hts => .ok ?_
      obtain ⟨rfl, hts⟩ := hts
      exact ⟨hx, by simpa using hts, rfl⟩
    | parameter law =>
      have hparameter : n.role.isParameter = true := by
        rw [hrole]
        rfl
      rw [hrole] at hexact
      rw [hkept hparameter (hnone hparameter)]
      cases y with
      | none => exact .error _
      | some y =>
        have hx : Value.Renders (.scalar y) (.scalar y) := .same (Value.isDense_array _)
        unfold locate
        simp only [hmode, Bool.false_eq_true, if_false, pure_bind]
        refine (concur_bindDist hl law hexact).bind fun d d' _ _ hd => ?_
        refine (concur_densityTerms hd hx).bind fun ts ts' _ _ hts => .ok ?_
        obtain ⟨rfl, hts⟩ := hts
        exact ⟨hx, by simpa using hts, rfl⟩

/-! ## Runs -/

/-- Along a whole run, no arithmetic of words wraps around, and all functions are exact at their
arguments. -/
def RunsExactly (g : Graph) (r : Registry Extended) (mode : EvaluationMode)
    (theta : List Extended) : Prop :=
  ∀ front i rest ev n, g.order = front ++ i :: rest →
    front.foldlM (g.visit r mode theta) Evaluation.start = .ok ev → g.nodes[i]? = some n →
    ∀ e ∈ n.role.parts, e.IsExact (g.environment r mode.calls ev.slots)

/-- The coordinates of the observed parameters are the numbers in the data, and the other parameters
keep their coordinates. -/
structure Fixes (data : Bindings) (g g' : Graph) (theta theta' : List Extended) : Prop where
  given : ∀ i n v, g.nodes[i]? = some n → n.role.isParameter = true →
    data.values.get? n.id = some v → g.coordinate? theta i = some v.exact
  kept : ∀ i n, g.nodes[i]? = some n → n.role.isParameter = true →
    data.values.get? n.id = none → g'.coordinate? theta' i = g.coordinate? theta i

section Runs

variable {data : Bindings} {g g' : Graph} {mode : EvaluationMode} {theta theta' : List Extended}
  {ev ev' : Evaluation Extended}

/-- Observing nodes does not change the numbers of identities. -/
theorem Observes.index?_eq (h : Observes data g g') : g'.index? = g.index? := by
  funext id
  unfold index?
  rw [h.nodes, List.findIdx?_map]
  exact congrArg (List.findIdx? · g.nodes) (funext fun n => by simp)

/-- A node of the observed graph is the observed node. -/
theorem Observes.getElem?_eq (h : Observes data g g') (i : Nat) :
    g'.nodes[i]? = (g.nodes[i]?).map (Node.observe data) := by
  rw [h.nodes, List.getElem?_map]

/-- A node is visited alike in both graphs. -/
theorem concur_visit (h : Observes data g g') (hfixes : Fixes data g g' theta theta')
    (hmode : mode.transformed = false) (hscore : mode.score = true) (hev : ev.Renders ev') (i : Nat)
    (hexact : ∀ n, g'.nodes[i]? = some n → ∀ e ∈ n.role.parts,
      e.IsExact (g'.environment r mode.calls ev'.slots)) :
    Concur Evaluation.Renders (g.visit r mode theta ev i) (g'.visit r mode theta' ev' i) := by
  cases hn : g.nodes[i]? with
  | none =>
    have hn' : g'.nodes[i]? = none := by rw [h.getElem?_eq, hn, Option.map_none]
    unfold visit
    rw [hn, hn']
    exact .ok hev
  | some n =>
    have hn' : g'.nodes[i]? = some (n.observe data) := by rw [h.getElem?_eq, hn, Option.map_some]
    rw [visit_untransformed hmode hn, visit_untransformed hmode hn']
    have hlookup : ∀ id, Concur Value.Renders ((g.environment r mode.calls ev.slots).lookup id)
        ((g'.environment r mode.calls ev'.slots).lookup id) :=
      concur_lookup h.index?_eq hev.slots
    have hcontribution := concur_contribution hmode hscore hlookup (hexact _ hn')
      (fun hparameter v hv => hfixes.given i n v hn hparameter hv)
      fun hparameter hnone => hfixes.kept i n hn hparameter hnone
    exact hcontribution.bind fun c c' _ _ hc => concur_addTo hc hev i

/-- The nodes along the rest of the order are visited alike in both graphs. -/
theorem concur_foldlM_visit (h : Observes data g g') (hfixes : Fixes data g g' theta theta')
    (hmode : mode.transformed = false) (hscore : mode.score = true)
    (hexact : g'.RunsExactly r mode theta') {front rest : List Nat}
    (horder : g'.order = front ++ rest)
    (hfront : front.foldlM (g'.visit r mode theta') Evaluation.start = .ok ev')
    (hev : ev.Renders ev') :
    Concur Evaluation.Renders (rest.foldlM (g.visit r mode theta) ev)
      (rest.foldlM (g'.visit r mode theta') ev') := by
  induction rest generalizing front ev ev' with
  | nil => exact .ok hev
  | cons i rest ih =>
    rw [List.foldlM_cons, List.foldlM_cons]
    have hvisit := concur_visit h hfixes hmode hscore hev i
      fun n hn => hexact front i rest ev' n horder hfront hn
    refine hvisit.bind fun next next' _ hnext' hnext => ?_
    have hfront' : (front ++ [i]).foldlM (g'.visit r mode theta') Evaluation.start = .ok next' := by
      rw [foldlM_append_eq_ok]
      exact ⟨ev', hfront, by simpa using hnext'⟩
    exact ih (by rw [horder, List.append_assoc]; rfl) hfront' hnext

/-- Both evaluations have results with the same terms, or the same error. -/
theorem concur_evaluate (h : Observes data g g') (hfixes : Fixes data g g' theta theta')
    (hmode : mode.transformed = false) (hscore : mode.score = true)
    (hexact : g'.RunsExactly r mode theta') :
    Concur Evaluation.Renders (g.evaluate r mode theta) (g'.evaluate r mode theta') := by
  unfold evaluate
  rw [← h.order]
  exact concur_foldlM_visit h hfixes hmode hscore hexact (List.nil_append _).symm rfl
    Evaluation.renders_start

/-- So they have the same density, if nothing but domain errors are raised. -/
theorem logDensity_of_observes (h : Observes data g g') (hfixes : Fixes data g g' theta theta')
    (hexact : g'.RunsExactly r { transformed := false, calls } theta')
    (hdomain : ∀ e, g.evaluate r { transformed := false, calls } theta = .error e →
      e.isDomain = true)
    (hdomain' : ∀ e, g'.evaluate r { transformed := false, calls } theta' = .error e →
      e.isDomain = true) (t : Tensor Extended) :
    (g.logDensity r false calls theta).collect.1 = .ok t ↔
      (g'.logDensity r false calls theta').collect.1 = .ok t := by
  rw [logDensity_result, logDensity_result]
  rcases (concur_evaluate h hfixes rfl rfl hexact).cases_of_isDomain hdomain hdomain' with
    ⟨ev, ev', hev, hev', hsame⟩ | ⟨e, he, he'⟩
  · rw [hev, hev', ok_bind, ok_bind]
    obtain ⟨terms, hterms, hterms'⟩ := hsame.terms
    have hiff (v : Value Extended) : ev.logDensity = .ok v ↔ ev'.logDensity = .ok v :=
      (hterms.logDensity_eq_ok_iff v).trans (hterms'.logDensity_eq_ok_iff v).symm
    cases hv : ev.logDensity with
    | ok v => rw [(hiff v).mp hv]
    | error e =>
      cases hv' : ev'.logDensity with
      | ok v =>
        rw [(hiff v).mpr hv'] at hv
        cases hv
      | error e' =>
        -- both sums fail, and this is no error of the arithmetic
        simp [hterms.failsWith_logDensity e hv, hterms'.failsWith_logDensity e' hv']
  · rw [he, he']

end Runs

end Graph

end BayesGraph
