import BayesGraph.Dual
import BayesGraph.Proofs.Evaluation
import BayesGraph.Proofs.Terms

/-!
# Evaluations solve the equations of a graph

Each node of a graph asks for one value: an observed node for its data, a logical node for the value
of its expression, a parameter for the point of its support at its coordinate. `Solves` collects
these equations. An evaluation of a built graph finds the only solution, and its three sums have one
term for each node that has one. In exact arithmetic another order of the nodes changes nothing.
-/

set_option autoImplicit false

namespace BayesGraph.Graph

open Outcome

variable {α : Type}

/-- The coordinate of an identity. -/
def coordinateOf (g : Graph) (theta : List α) (id : Identity) : Option α :=
  (g.index? id).bind (g.coordinate? theta)

variable [Scalar α]

/-! ## Equations and terms of a node -/

/-- Under the values `V`, a node has the value that its role asks for. -/
def NodeEquation (r : Registry α) (mode : EvaluationMode) (coordinate : Identity → Option α)
    (V : Valuation α) (n : Node) : Prop :=
  match n.role with
  | .observed value _ => V n.id = some (.number (value.map Scalar.ofDouble))
  | .logical e => ∃ v, e.eval (V.environment r mode.calls) = .ok v ∧ V n.id = some v
  | .parameter law => ∃ y d x, coordinate n.id = some y ∧
      bindDist r (V.environment r mode.calls) law = .ok d ∧
      (if mode.transformed then ∃ t, d.transform = .ok t ∧ t.map.backward (.scalar y) = .ok x
        else x = .scalar y) ∧
      V n.id = some x

/-- Values for all identities of a graph, and for no others, that solve the equations. -/
structure Solves (g : Graph) (r : Registry α) (mode : EvaluationMode) (theta : List α)
    (V : Valuation α) : Prop where
  equations : ∀ n ∈ g.nodes, NodeEquation r mode (g.coordinateOf theta) V n
  outside : ∀ id, g.contains id = false → V id = none

/-- The logarithm of the density of a stochastic node at its value is `t`. -/
def LogPdfAt (r : Registry α) (calls : CallMode) (V : Valuation α) (n : Node) (t : Value α) :
    Prop :=
  ∃ law d x, n.role.dist? = some law ∧ bindDist r (V.environment r calls) law = .ok d ∧
    V n.id = some x ∧ d.logPdf x = .ok t

/-- The logarithm of the derivative of a parameter's transform at its coordinate is `t`. -/
def LogJacobianAt (r : Registry α) (calls : CallMode) (coordinate : Identity → Option α)
    (V : Valuation α) (n : Node) (t : Value α) : Prop :=
  ∃ law d y f, n.role.dist? = some law ∧ bindDist r (V.environment r calls) law = .ok d ∧
    coordinate n.id = some y ∧ d.transform = .ok f ∧ f.map.logJacobian (.scalar y) = .ok t

/-- A node has one term of the log-density. -/
theorem LogPdfAt.unique {r : Registry α} {calls : CallMode} {V : Valuation α} {n : Node}
    {s t : Value α} (hs : LogPdfAt r calls V n s) (ht : LogPdfAt r calls V n t) : s = t := by
  obtain ⟨law, d, x, hlaw, hd, hx, hs⟩ := hs
  obtain ⟨law', d', x', hlaw', hd', hx', ht⟩ := ht
  simp_all

/-- A node has one term of the log-Jacobian. -/
theorem LogJacobianAt.unique {r : Registry α} {calls : CallMode}
    {coordinate : Identity → Option α} {V : Valuation α} {n : Node} {s t : Value α}
    (hs : LogJacobianAt r calls coordinate V n s)
    (ht : LogJacobianAt r calls coordinate V n t) : s = t := by
  obtain ⟨law, d, y, f, hlaw, hd, hy, hf, hs⟩ := hs
  obtain ⟨law', d', y', f', hlaw', hd', hy', hf', ht⟩ := ht
  simp_all

/-- The numbers of the nodes with a property, in the order of the graph. -/
def select (g : Graph) (p : Node → Bool) : List Nat :=
  g.order.filter fun i => (g.nodes[i]?).any p

/-- A sum with one term for each of some nodes, from left to right and starting with zero. -/
def IsSum (g : Graph) (is : List Nat) (term : Node → Value α → Prop) (total : Value α) : Prop :=
  ∃ terms, List.Forall₂ (fun i t => ∃ n, g.nodes[i]? = some n ∧ term n t) is terms ∧
    addTerms (.real (Scalar.ofInt 0)) terms = .ok total

/-! ## The only solution -/

/-- Solutions that agree on the references of a node agree on the node. -/
theorem NodeEquation.unique {r : Registry α} {mode : EvaluationMode}
    {coordinate : Identity → Option α} {V W : Valuation α} {n : Node} {refs : List Identity}
    (hrefs : Expr.refsOfAll n.role.parts = .ok refs) (hVW : ∀ id ∈ refs, V id = W id)
    (hV : NodeEquation r mode coordinate V n) (hW : NodeEquation r mode coordinate W n) :
    V n.id = W n.id := by
  unfold NodeEquation at hV hW
  cases hrole : n.role with
  | observed value dist =>
    rw [hrole] at hV hW
    exact hV.trans hW.symm
  | logical e =>
    rw [hrole] at hV hW hrefs
    obtain ⟨v, hv, hVn⟩ := hV
    obtain ⟨w, hw, hWn⟩ := hW
    have he : e.eval (V.environment r mode.calls) = e.eval (W.environment r mode.calls) :=
      eval_congr hrefs hVW
    rw [he, hw] at hv
    cases hv
    rw [hVn, hWn]
  | parameter law =>
    rw [hrole] at hV hW hrefs
    obtain ⟨y, d, x, hy, hd, hx, hVn⟩ := hV
    obtain ⟨z, e, w, hz, he, hw, hWn⟩ := hW
    have hlaw : bindDist r (V.environment r mode.calls) law =
        bindDist r (W.environment r mode.calls) law := bindDist_congr hrefs hVW
    rw [hlaw, he] at hd
    cases hd
    rw [hy] at hz
    cases hz
    have hxw : x = w := by
      by_cases htransformed : mode.transformed = true
      · rw [if_pos htransformed] at hx hw
        obtain ⟨t, ht, hx⟩ := hx
        obtain ⟨u, hu, hw⟩ := hw
        rw [ht] at hu
        cases hu
        rw [hx] at hw
        cases hw
        rfl
      · rw [if_neg htransformed] at hx hw
        exact hx.trans hw.symm
    rw [hVn, hWn, hxw]

/-- The equations of a graph have at most one solution. -/
theorem Solves.unique {g : Graph} (hg : g.WellFormed) {r : Registry α} {mode : EvaluationMode}
    {theta : List α} {V W : Valuation α} (hV : g.Solves r mode theta V)
    (hW : g.Solves r mode theta W) : V = W := by
  have hagree : ∀ n ∈ g.nodes, V n.id = W n.id := by
    refine hg.node_induction fun n hn refs hrefs ih => ?_
    refine NodeEquation.unique hrefs (fun id hid => ?_) (hV.equations n hn) (hW.equations n hn)
    obtain ⟨p, hp, rfl⟩ := hg.node_of_ref hn hrefs hid
    exact ih p hp hid
  funext id
  cases hindex : g.index? id with
  | none =>
    have hout : g.contains id = false := by simp [contains, hindex]
    rw [hV.outside id hout, hW.outside id hout]
  | some i =>
    obtain ⟨n, hn, rfl⟩ := hg.getElem?_of_index? hindex
    exact hagree n (List.mem_of_getElem? hn)

/-! ## What an evaluation finds -/

/-- The terms of a node with a distribution are one logarithm, or none if no terms are computed. -/
theorem densityTerms_eq_ok {mode : EvaluationMode} {d : BoundDist α} {x : Value α}
    {terms : List (Value α)} (h : densityTerms mode d x = .ok terms) :
    if mode.score then ∃ t, terms = [t] ∧ d.logPdf x = .ok t else terms = [] := by
  unfold densityTerms at h
  split at h
  · next hscore =>
    simp only [bind_eq_ok, pure_eq_ok] at h
    obtain ⟨t, ht, rfl⟩ := h
    rw [if_pos hscore]
    exact ⟨t, rfl, ht⟩
  · next hscore =>
    cases h
    rw [if_neg hscore]

/-- The place of a parameter, and one logarithm of a derivative if coordinates are unconstrained. -/
theorem locate_eq_ok {mode : EvaluationMode} {d : BoundDist α} {y : α} {x : Value α}
    {slopes : List (Value α)} (h : locate mode d y = .ok (x, slopes)) :
    if mode.transformed then ∃ f t, d.transform = .ok f ∧ f.map.backward (.scalar y) = .ok x ∧
        f.map.logJacobian (.scalar y) = .ok t ∧ slopes = [t]
      else x = .scalar y ∧ slopes = [] := by
  unfold locate BoundDist.toConstrained at h
  split at h
  · next htransformed =>
    simp only [bind_eq_ok, pure_eq_ok, Prod.exists, Prod.mk.injEq] at h
    obtain ⟨u, t, ⟨f, hf, z, hz, s, hs, rfl, rfl⟩, rfl, rfl⟩ := h
    rw [if_pos htransformed]
    exact ⟨f, s, hf, hz, hs, rfl⟩
  · next htransformed =>
    cases h
    rw [if_neg htransformed]
    exact ⟨rfl, rfl⟩

section Contributions

variable {r : Registry α} {mode : EvaluationMode} {coordinate : Identity → Option α}
  {V : Valuation α} {n : Node} {c : Contribution α}

/-- A node that contributes its own value solves its equation. -/
theorem NodeEquation.of_contribution
    (h : contribution r mode (V.environment r mode.calls) (coordinate n.id) n = .ok c)
    (hV : V n.id = some c.value) : NodeEquation r mode coordinate V n := by
  unfold NodeEquation
  cases contribution_eq_ok_iff.mp h with
  | observed hrole _ =>
    rw [hrole]
    exact hV
  | logical hrole hv =>
    rw [hrole]
    exact ⟨_, hv, hV⟩
  | parameter hrole hy hd hx _ =>
    rw [hrole]
    refine ⟨_, _, _, hy, hd, ?_, hV⟩
    have hlocate := locate_eq_ok hx
    split at hlocate
    · next htransformed =>
      obtain ⟨f, t, hf, hback, -, -⟩ := hlocate
      rw [if_pos htransformed]
      exact ⟨f, hf, hback⟩
    · next htransformed =>
      rw [if_neg htransformed]
      exact hlocate.1

/-- A parameter contributes its term to the prior, and other nodes contribute none. -/
theorem prior_of_contribution
    (h : contribution r mode (V.environment r mode.calls) (coordinate n.id) n = .ok c)
    (hV : V n.id = some c.value) :
    if mode.score && n.role.isParameter then ∃ t, c.prior = [t] ∧ LogPdfAt r mode.calls V n t
      else c.prior = [] := by
  cases contribution_eq_ok_iff.mp h with
  | observed hrole _ | logical hrole _ => simp [hrole, Role.isParameter]
  | parameter hrole _ hd _ hterms =>
    have hscore := densityTerms_eq_ok hterms
    rw [hrole, Role.isParameter, Bool.and_true]
    split at hscore
    · next hs =>
      obtain ⟨t, rfl, ht⟩ := hscore
      rw [if_pos hs]
      exact ⟨t, rfl, _, _, _, by rw [hrole]; rfl, hd, hV, ht⟩
    · next hs =>
      rw [if_neg hs]
      exact hscore

/-- An observed node with a distribution contributes its term to the likelihood, and other nodes
contribute none. -/
theorem likelihood_of_contribution
    (h : contribution r mode (V.environment r mode.calls) (coordinate n.id) n = .ok c)
    (hV : V n.id = some c.value) :
    if mode.score && (n.role.isObserved && n.isStochastic) then
        ∃ t, c.likelihood = [t] ∧ LogPdfAt r mode.calls V n t
      else c.likelihood = [] := by
  cases contribution_eq_ok_iff.mp h with
  | logical hrole _ | parameter hrole => simp [hrole, Role.isObserved]
  | @observed value dist terms hrole hterms =>
    unfold observedTerms at hterms
    cases dist with
    | none =>
      cases hterms
      simp [Node.isStochastic, hrole, Role.dist?]
    | some law =>
      have hstochastic : (n.role.isObserved && n.isStochastic) = true := by
        simp [Role.isObserved, Node.isStochastic, hrole, Role.dist?]
      rw [hstochastic, Bool.and_true]
      dsimp only at hterms
      split at hterms
      · next hs =>
        simp only [bind_eq_ok] at hterms
        obtain ⟨d, hd, hterms⟩ := hterms
        have hscore := densityTerms_eq_ok hterms
        rw [if_pos hs] at hscore ⊢
        obtain ⟨t, rfl, ht⟩ := hscore
        exact ⟨t, rfl, law, d, _, by rw [hrole]; rfl, hd, hV, ht⟩
      · next hs =>
        cases hterms
        rw [if_neg hs]

/-- A parameter contributes the logarithm of a derivative if coordinates are unconstrained, and
other nodes contribute none. -/
theorem jacobian_of_contribution
    (h : contribution r mode (V.environment r mode.calls) (coordinate n.id) n = .ok c) :
    if mode.transformed && n.role.isParameter then
        ∃ t, c.jacobian = [t] ∧ LogJacobianAt r mode.calls coordinate V n t
      else c.jacobian = [] := by
  cases contribution_eq_ok_iff.mp h with
  | observed hrole _ | logical hrole _ => simp [hrole, Role.isParameter]
  | parameter hrole hy hd hx _ =>
    have hlocate := locate_eq_ok hx
    rw [hrole, Role.isParameter, Bool.and_true]
    split at hlocate
    · next ht =>
      obtain ⟨f, t, hf, -, hjac, rfl⟩ := hlocate
      rw [if_pos ht]
      exact ⟨t, rfl, _, _, _, f, by rw [hrole]; rfl, hd, hy, hf, hjac⟩
    · next ht =>
      rw [if_neg ht]
      exact hlocate.2

/-- All terms that a node contributes are arrays of a density. -/
theorem isDensity_of_contribution
    (h : contribution r mode (V.environment r mode.calls) (coordinate n.id) n = .ok c)
    (hV : V n.id = some c.value) :
    ∀ t ∈ c.prior ++ c.likelihood ++ c.jacobian, t.IsDensity := by
  have hpdf : ∀ t, LogPdfAt r mode.calls V n t → t.IsDensity := by
    rintro t ⟨law, d, x, -, -, -, ht⟩
    exact BoundDist.logPdf_isDensity ht
  have hprior : ∀ t ∈ c.prior, t.IsDensity := by
    intro t ht
    have hterms := prior_of_contribution h hV
    split at hterms
    · obtain ⟨u, hu, hpdfu⟩ := hterms
      rw [hu, List.mem_singleton] at ht
      exact ht ▸ hpdf u hpdfu
    · simp [hterms] at ht
  have hlikelihood : ∀ t ∈ c.likelihood, t.IsDensity := by
    intro t ht
    have hterms := likelihood_of_contribution h hV
    split at hterms
    · obtain ⟨u, hu, hpdfu⟩ := hterms
      rw [hu, List.mem_singleton] at ht
      exact ht ▸ hpdf u hpdfu
    · simp [hterms] at ht
  have hjacobian : ∀ t ∈ c.jacobian, t.IsDensity := by
    intro t ht
    have hterms := jacobian_of_contribution h
    split at hterms
    · obtain ⟨u, hu, law, d, y, f, -, -, -, -, hjac⟩ := hterms
      rw [hu, List.mem_singleton] at ht
      exact ht ▸ Bijection.logJacobian_isDensity f.map hjac ⟨.scalar y, rfl⟩
    · simp [hterms] at ht
  intro t ht
  simp only [List.mem_append] at ht
  rcases ht with (ht | ht) | ht
  · exact hprior t ht
  · exact hlikelihood t ht
  · exact hjacobian t ht

end Contributions

/-- The sum of the terms that the nodes along the order contribute. -/
theorem IsSum.of_contributions {g : Graph} {r : Registry α} {mode : EvaluationMode}
    {theta : List α} {slots : Slots α} {cs : List (Contribution α)} {p : Node → Bool}
    {f : Contribution α → List (Value α)} {term : Node → Value α → Prop} {total : Value α}
    (hcs : List.Forall₂ (g.Contributes r mode theta slots) g.order cs)
    (hterm : ∀ i n c, g.nodes[i]? = some n → slots i = some c.value →
      contribution r mode (g.environment r mode.calls slots) (g.coordinate? theta i) n = .ok c →
      if p n then ∃ t, f c = [t] ∧ term n t else f c = [])
    (htotal : addTerms (.real (Scalar.ofInt 0)) (cs.flatMap f) = .ok total) :
    g.IsSum (g.select p) term total := by
  refine ⟨cs.flatMap f, forall₂_filter_flatMap hcs ?_, htotal⟩
  rintro i c ⟨n, hn, hslot, hc⟩
  have hnode := hterm i n c hn hslot hc
  rw [hn, Option.any_some]
  split at hnode
  · next hp =>
    obtain ⟨t, ht, htn⟩ := hnode
    rw [if_pos hp]
    exact ⟨t, ht, n, rfl, htn⟩
  · next hp =>
    rw [if_neg hp]
    exact hnode

/-- The values of an evaluation solve the equations of the graph, and each sum has one term for each
node that has one. -/
structure Accounts (g : Graph) (r : Registry α) (mode : EvaluationMode) (theta : List α)
    (ev : Evaluation α) : Prop where
  solves : g.Solves r mode theta (g.valuation ev.slots)
  prior : g.IsSum (g.select fun n => mode.score && n.role.isParameter)
    (LogPdfAt r mode.calls (g.valuation ev.slots)) ev.logPrior
  likelihood : g.IsSum (g.select fun n => mode.score && (n.role.isObserved && n.isStochastic))
    (LogPdfAt r mode.calls (g.valuation ev.slots)) ev.logLikelihood
  jacobian : g.IsSum (g.select fun n => mode.transformed && n.role.isParameter)
    (LogJacobianAt r mode.calls (g.coordinateOf theta) (g.valuation ev.slots)) ev.logJacobian

omit [Scalar α] in
/-- The coordinate and the value of the identity of node `i` are those of the node. -/
theorem WellFormed.at_node {g : Graph} (hg : g.WellFormed) (theta : List α) (slots : Slots α)
    {i : Nat} {n : Node} (hn : g.nodes[i]? = some n) :
    g.coordinateOf theta n.id = g.coordinate? theta i ∧ g.valuation slots n.id = slots i := by
  unfold coordinateOf valuation
  rw [hg.index?_of_getElem? hn]
  exact ⟨rfl, rfl⟩

omit [Scalar α] in
/-- Slots give values to identities of nodes only. -/
theorem valuation_outside {g : Graph} {slots : Slots α} {id : Identity}
    (h : g.contains id = false) : g.valuation slots id = none := by
  have hnone : g.index? id = none := by simpa [contains] using h
  unfold valuation
  rw [hnone]
  rfl

/-- Every evaluation of a well-formed graph accounts for all of its nodes. -/
theorem Accounts.of_evaluate {g : Graph} (hg : g.WellFormed) {r : Registry α}
    {mode : EvaluationMode} {theta : List α} {ev : Evaluation α}
    (h : g.evaluate r mode theta = .ok ev) : g.Accounts r mode theta ev := by
  obtain ⟨cs, hcs, -, hsum⟩ := (evaluate_eq_ok_iff hg).mp h
  refine ⟨⟨fun n hmem => ?_, fun id hid => valuation_outside hid⟩, ?_, ?_, ?_⟩
  · obtain ⟨i, hn⟩ := List.getElem?_of_mem hmem
    obtain ⟨c, -, n', hn', hslot, hc⟩ := exists_of_forall₂ hcs (hg.mem_order hn)
    rw [hn] at hn'
    cases hn'
    obtain ⟨hcoordinate, hvalue⟩ := hg.at_node theta ev.slots hn
    rw [← hcoordinate] at hc
    exact NodeEquation.of_contribution hc (hvalue.trans hslot)
  · refine IsSum.of_contributions hcs (fun i n c hn hslot hc => ?_) hsum.prior
    obtain ⟨hcoordinate, hvalue⟩ := hg.at_node theta ev.slots hn
    rw [← hcoordinate] at hc
    exact prior_of_contribution hc (hvalue.trans hslot)
  · refine IsSum.of_contributions hcs (fun i n c hn hslot hc => ?_) hsum.likelihood
    obtain ⟨hcoordinate, hvalue⟩ := hg.at_node theta ev.slots hn
    rw [← hcoordinate] at hc
    exact likelihood_of_contribution hc (hvalue.trans hslot)
  · refine IsSum.of_contributions hcs (fun i n c hn hslot hc => ?_) hsum.jacobian
    obtain ⟨hcoordinate, hvalue⟩ := hg.at_node theta ev.slots hn
    rw [← hcoordinate] at hc
    exact jacobian_of_contribution hc

/-- The value and the identity that a parameter contributes. -/
theorem parameters_of_contribution {r : Registry α} {mode : EvaluationMode}
    {coordinate : Option α} {env : Environment α} {n : Node} {c : Contribution α}
    (h : contribution r mode env coordinate n = .ok c) :
    if n.role.isParameter then ∃ p, c.parameters = [p] ∧ p = (n.id, c.value)
      else c.parameters = [] := by
  cases contribution_eq_ok_iff.mp h with
  | observed hrole _ | logical hrole _ | parameter hrole => simp [hrole, Role.isParameter]

/-- An evaluation lists the parameters with the values in their slots. -/
theorem parameters_of_evaluate {g : Graph} (hg : g.WellFormed) {r : Registry α}
    {mode : EvaluationMode} {theta : List α} {ev : Evaluation α}
    (h : g.evaluate r mode theta = .ok ev) :
    List.Forall₂ (fun i p => (g.nodes[i]?).map (·.id) = some p.1 ∧ ev.slots i = some p.2)
      g.parameters ev.parameters := by
  obtain ⟨cs, hcs, -, hsum⟩ := (evaluate_eq_ok_iff hg).mp h
  rw [hg.parameters, hsum.parameters]
  refine forall₂_filter_flatMap hcs ?_
  rintro i c ⟨n, hn, hvalue, hc⟩
  have hnode := parameters_of_contribution hc
  rw [hn, Option.any_some]
  split at hnode
  · next hp =>
    obtain ⟨p, hlist, rfl⟩ := hnode
    rw [if_pos hp]
    exact ⟨_, hlist, rfl, hvalue⟩
  · next hp =>
    rw [if_neg hp]
    exact hnode

/-! ## Other orders -/

/-- The same graph with its nodes in another order. -/
def reorder (g : Graph) (order : List Nat) : Graph :=
  { g with
    order := order
    parameters := order.filter fun i => (g.nodes[i]?).any (·.role.isParameter) }

/-- A well-formed graph stays well-formed in any order of its nodes. -/
theorem WellFormed.reorder {g : Graph} (hg : g.WellFormed) {order : List Nat}
    (h : g.parentLists.IsOrder order) : (g.reorder order).WellFormed :=
  ⟨hg.nodup, h, rfl, hg.linked⟩

/-- In exact arithmetic, contributions can be added in any order. -/
theorem SummedTo.perm [ExactScalar α] {cs cs' : List (Contribution α)} {ev : Evaluation α}
    (h : SummedTo cs Evaluation.start ev) (hperm : cs.Perm cs')
    (hdensity : ∀ c ∈ cs, ∀ t ∈ c.prior ++ c.likelihood ++ c.jacobian, t.IsDensity) :
    SummedTo cs' Evaluation.start { ev with parameters := cs'.flatMap (·.parameters) } := by
  refine ⟨by simp [Evaluation.start], ?_, ?_, ?_⟩
  · refine Value.addTerms_perm (hperm.flatMap_right _) (fun t ht => ?_) h.prior
    obtain ⟨c, hc, ht⟩ := List.mem_flatMap.mp ht
    exact hdensity c hc t (by simp [ht])
  · refine Value.addTerms_perm (hperm.flatMap_right _) (fun t ht => ?_) h.likelihood
    obtain ⟨c, hc, ht⟩ := List.mem_flatMap.mp ht
    exact hdensity c hc t (by simp [ht])
  · refine Value.addTerms_perm (hperm.flatMap_right _) (fun t ht => ?_) h.jacobian
    obtain ⟨c, hc, ht⟩ := List.mem_flatMap.mp ht
    exact hdensity c hc t (by simp [ht])

/-- All terms that the nodes along an order contribute are arrays of a density. -/
theorem isDensity_of_contributes {g : Graph} (hg : g.WellFormed) {r : Registry α}
    {mode : EvaluationMode} {theta : List α} {slots : Slots α} {is : List Nat}
    {cs : List (Contribution α)} (hcs : List.Forall₂ (g.Contributes r mode theta slots) is cs) :
    ∀ c ∈ cs, ∀ t ∈ c.prior ++ c.likelihood ++ c.jacobian, t.IsDensity := by
  intro c hc
  obtain ⟨i, -, n, hn, hslot, hcontribution⟩ := exists_of_forall₂ hcs.flip hc
  obtain ⟨hcoordinate, hvalue⟩ := hg.at_node theta slots hn
  rw [← hcoordinate] at hcontribution
  exact isDensity_of_contribution hcontribution (hvalue.trans hslot)

/-- In exact arithmetic, another order of the same graph gives the same values and the same sums, if
each parameter keeps its coordinate. -/
theorem evaluate_reorder [ExactScalar α] {g : Graph} (hg : g.WellFormed) {r : Registry α}
    {mode : EvaluationMode} {theta theta' : List α} {ev : Evaluation α} {order : List Nat}
    (h : g.evaluate r mode theta = .ok ev) (horder : g.parentLists.IsOrder order)
    (htheta : ∀ id, (g.reorder order).coordinateOf theta' id = g.coordinateOf theta id) :
    ∃ ev', (g.reorder order).evaluate r mode theta' = .ok ev' ∧ ev'.slots = ev.slots ∧
      ev'.logPrior = ev.logPrior ∧ ev'.logLikelihood = ev.logLikelihood ∧
      ev'.logJacobian = ev.logJacobian := by
  obtain ⟨cs, hcs, hnone, hsum⟩ := (evaluate_eq_ok_iff hg).mp h
  have hperm : order.Perm g.order := horder.perm.trans hg.order.perm.symm
  -- the contributions are those of the other order, rearranged
  obtain ⟨cs', hcs', hperm'⟩ := List.perm_comp_forall₂ hperm hcs
  have hdensity := isDensity_of_contributes hg hcs
  have hcontributes : List.Forall₂ ((g.reorder order).Contributes r mode theta' ev.slots) order
      cs' := by
    refine hcs'.imp ?_
    rintro i c ⟨n, hn, hslot, hcontribution⟩
    refine ⟨n, hn, hslot, ?_⟩
    have hcoordinate := htheta n.id
    rw [(hg.at_node theta ev.slots hn).1,
      ((hg.reorder horder).at_node theta' ev.slots hn).1] at hcoordinate
    rw [hcoordinate]
    exact hcontribution
  refine ⟨{ ev with parameters := cs'.flatMap (·.parameters) },
    (evaluate_eq_ok_iff (hg.reorder horder)).mpr ⟨cs', hcontributes, fun i hi => ?_,
      hsum.perm hperm'.symm hdensity⟩, rfl, rfl, rfl, rfl⟩
  exact hnone i fun hmem => hi (hperm.mem_iff.mpr hmem)

/-! ## The main theorem -/

/-- An evaluation of a graph that a build returned finds the only solution of the equations, for
constrained and for unconstrained coordinates. Its sums have one term for each node that has one,
every node being listed once, and the sum of the derivatives is zero for constrained coordinates.
In exact arithmetic any other order of the same graph gives the same values and sums. The graph may
have been built over other scalars. -/
theorem evaluate_of_build {β : Type} [Scalar β] {m : Model} {bindings : Table String Datum}
    {r₀ : Registry β} {g : Graph} (hg : (build m bindings r₀).collect.1 = .ok g) {r : Registry α}
    {mode : EvaluationMode} {theta : List α} {ev : Evaluation α}
    (h : g.evaluate r mode theta = .ok ev) :
    g.Accounts r mode theta ev ∧
      (∀ V, g.Solves r mode theta V → V = g.valuation ev.slots) ∧
      g.order.Perm (List.range g.size) ∧
      (mode.transformed = false → ev.logJacobian = .real (Scalar.ofInt 0)) ∧
      (ExactScalar α → ∀ order theta', g.parentLists.IsOrder order →
        (∀ id, (g.reorder order).coordinateOf theta' id = g.coordinateOf theta id) →
        ∃ ev', (g.reorder order).evaluate r mode theta' = .ok ev' ∧
          (g.reorder order).valuation ev'.slots = g.valuation ev.slots ∧
          ev'.logPrior = ev.logPrior ∧ ev'.logLikelihood = ev.logLikelihood ∧
          ev'.logJacobian = ev.logJacobian) := by
  have hwf := wellFormed_of_build hg
  have haccounts := Accounts.of_evaluate hwf h
  refine ⟨haccounts, fun V hV => hV.unique hwf haccounts.solves, ?_, ?_, ?_⟩
  · have hlen : g.parentLists.length = g.size := List.length_map _
    rw [← hlen]
    exact hwf.order.perm
  · intro htransformed
    obtain ⟨terms, hterms, htotal⟩ := haccounts.jacobian
    have hnone : g.select (fun n => mode.transformed && n.role.isParameter) = [] := by
      rw [htransformed]
      simp [select]
    rw [hnone] at hterms
    cases hterms
    rw [addTerms_nil, Except.ok.injEq] at htotal
    exact htotal.symm
  · intro hexact order theta' horder htheta
    obtain ⟨ev', hev', hslots, hsums⟩ := evaluate_reorder hwf h horder htheta
    exact ⟨ev', hev', congrArg g.valuation hslots, hsums⟩

/-- A parameter `x`, a logical node `z <- x + 1` and an observation `y ~ dnorm(z, 1)`. -/
def shiftModel : Model where
  statements :=
    [.sample [] (.var (.text "x"))
      (.dist { name := .text "dnorm", params := [.literal (.int 0), .literal (.int 1)] }),
    .assign [] (.var (.text "z")) (.add (.var (.text "x")) (.literal (.int 1))),
    .sample [] (.var (.text "y"))
      (.dist { name := .text "dnorm", params := [.var (.text "z"), .literal (.int 1)] })]

/-- The value 2 for `y`. -/
def shiftData : Table String Datum := ⟨[("y", .int 2)]⟩

/-- The value of `y` under its identity. -/
def shiftBindings : Bindings := ⟨⟨[(⟨"y", []⟩, .int 2)]⟩, ⟨[("y", [])]⟩⟩

/-- The data are the value of `y`. -/
theorem flatten_shiftData : Bindings.flatten shiftData = .ok shiftBindings := rfl

/-- Nothing but the data is constant, because `z` depends on a parameter. -/
theorem constants_shiftModel :
    Folding.constants (Registry.builtin : Registry Dual).foldingFunctions shiftModel.statements
      shiftBindings = .ok (shiftBindings.values.map fun n => n.map Scalar.ofDouble) := by
  unfold Folding.constants Folding.saturate
  rfl

/-- The graph of the model is built, its evaluation at zero returns, and so it is characterized. -/
theorem evaluate_shiftModel :
    ∃ g ev, (build shiftModel shiftData (Registry.builtin : Registry Dual)).collect.1 = .ok g ∧
      g.evaluate (Registry.builtin : Registry Dual) {} [Scalar.ofInt 0] = .ok ev ∧
      g.Accounts (Registry.builtin : Registry Dual) {} [Scalar.ofInt 0] ev ∧
      ∀ V, g.Solves (Registry.builtin : Registry Dual) {} [Scalar.ofInt 0] V →
        V = g.valuation ev.slots := by
  obtain ⟨g, hg, ev, hev⟩ : ∃ g, (build shiftModel shiftData
      (Registry.builtin : Registry Dual)).collect.1 = .ok g ∧
        ∃ ev, g.evaluate (Registry.builtin : Registry Dual) {} [Scalar.ofInt 0] = .ok ev := by
    rw [build_of_constants flatten_shiftData constants_shiftModel]
    decide +kernel
  obtain ⟨haccounts, hunique, -⟩ := evaluate_of_build hg hev
  exact ⟨g, ev, hg, hev, haccounts, hunique⟩

end BayesGraph.Graph
