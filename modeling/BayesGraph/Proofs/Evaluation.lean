import BayesGraph.Evaluation
import BayesGraph.Proofs.Build
import BayesGraph.Proofs.References

/-!
# Evaluation node by node

What a visit does to an evaluation depends on the values of the node's references only, and not on
how nodes are numbered: `contribution` is the value of a node and its terms, under an environment.
`evaluate_eq_ok_iff` says that an evaluation succeeds exactly with those values under which every
node contributes its own value, and with the sums of all terms in the order of the graph. The
induction runs along the order; it is carried by the fact that the references of a node have been
placed before it, so that their values do not change any more.
-/

set_option autoImplicit false

namespace BayesGraph

open Outcome

namespace Expr

/-- The references of two lists of expressions. -/
theorem refsOfAll_append {es fs : List Expr} {ids : List Identity} :
    refsOfAll (es ++ fs) = .ok ids ↔
      ∃ left right, refsOfAll es = .ok left ∧ refsOfAll fs = .ok right ∧ left ++ right = ids := by
  induction es generalizing ids with
  | nil => simp [refsOfAll]
  | cons e es ih =>
    simp only [List.cons_append, refsOfAll, bind_eq_ok, pure_eq_ok, ih]
    constructor
    · rintro ⟨first, hfirst, rest, ⟨left, right, hleft, hright, rfl⟩, rfl⟩
      exact ⟨first ++ left, right, ⟨first, hfirst, left, hleft, rfl⟩, hright, by simp⟩
    · rintro ⟨_, right, ⟨first, hfirst, left, hleft, rfl⟩, hright, rfl⟩
      exact ⟨first, hfirst, left ++ right, ⟨left, right, hleft, hright, rfl⟩, by simp⟩

end Expr

namespace Graph

variable {α : Type}

/-- Values by identity. -/
abbrev Valuation (α : Type) : Type := Identity → Option (Value α)

/-- The environment in which expressions have the values that a valuation gives. -/
def Valuation.environment (V : Valuation α) (r : Registry α) (calls : CallMode) :
    Environment α where
  rules := .density
  mode := calls
  functions := r.functions
  lookup id :=
    match V id with
    | some v => .ok v
    | none => .error (.missing id)

/-- The values in the slots of a graph, by identity. -/
def valuation (g : Graph) (slots : Slots α) : Valuation α := fun id => (g.index? id).bind slots

/-- The slots of a graph are looked up by the identities of the nodes. -/
theorem environment_eq (g : Graph) (r : Registry α) (calls : CallMode) (slots : Slots α) :
    g.environment r calls slots = (g.valuation slots).environment r calls := rfl

variable [Scalar α]

/-- What a node adds to an evaluation: its value, and the terms of the three sums. -/
structure Contribution (α : Type) where
  value : Value α
  parameters : List (Identity × Value α) := []
  prior : List (Value α) := []
  likelihood : List (Value α) := []
  jacobian : List (Value α) := []

/-- The contribution of a node, with its coordinate if it is a parameter. -/
def contribution (r : Registry α) (mode : EvaluationMode) (env : Environment α)
    (coordinate : Option α) (n : Node) : Except EvalError (Contribution α) :=
  match n.role with
  | .logical e => do
    return { value := ← e.eval env }
  | .observed value dist => do
    let x : Value α := .number (value.map Scalar.ofDouble)
    return { value := x, likelihood := ← observedTerms r env mode x dist }
  | .parameter law =>
    match coordinate with
    | none => throw (.missing n.id)
    | some y => do
      let d ← bindDist r env law
      let (x, slopes) ← locate mode d y
      let terms ← densityTerms mode d x
      return { value := x, parameters := [(n.id, x)], prior := terms, jacobian := slopes }

/-- What a node can contribute, one case for each role. -/
inductive Contribution.ByRole (r : Registry α) (mode : EvaluationMode) (env : Environment α)
    (coordinate : Option α) (n : Node) : Contribution α → Prop where
  | logical {e : Expr} {v : Value α} (hrole : n.role = .logical e) (hv : e.eval env = .ok v) :
    ByRole r mode env coordinate n { value := v }
  | observed {value : Number Double} {dist : Option Dist} {terms : List (Value α)}
    (hrole : n.role = .observed value dist)
    (hterms : observedTerms r env mode (.number (value.map Scalar.ofDouble)) dist = .ok terms) :
    ByRole r mode env coordinate n
      { value := .number (value.map Scalar.ofDouble), likelihood := terms }
  | parameter {law : Dist} {y : α} {d : BoundDist α} {x : Value α} {slopes terms : List (Value α)}
    (hrole : n.role = .parameter law) (hy : coordinate = some y)
    (hd : bindDist r env law = .ok d) (hx : locate mode d y = .ok (x, slopes))
    (hterms : densityTerms mode d x = .ok terms) :
    ByRole r mode env coordinate n
      { value := x, parameters := [(n.id, x)], prior := terms, jacobian := slopes }

/-- The contribution of a node goes by its role. -/
theorem contribution_eq_ok_iff {r : Registry α} {mode : EvaluationMode} {env : Environment α}
    {coordinate : Option α} {n : Node} {c : Contribution α} :
    contribution r mode env coordinate n = .ok c ↔ c.ByRole r mode env coordinate n := by
  constructor
  · intro h
    unfold contribution at h
    cases hrole : n.role with
    | logical e =>
      simp only [hrole, bind_eq_ok, pure_eq_ok] at h
      obtain ⟨v, hv, rfl⟩ := h
      exact .logical hrole hv
    | observed value dist =>
      simp only [hrole, bind_eq_ok, pure_eq_ok] at h
      obtain ⟨terms, hterms, rfl⟩ := h
      exact .observed hrole hterms
    | parameter law =>
      cases coordinate with
      | none => simp [hrole] at h
      | some y =>
        simp only [hrole, bind_eq_ok, pure_eq_ok, Prod.exists] at h
        obtain ⟨d, hd, x, slopes, hx, terms, hterms, rfl⟩ := h
        exact .parameter hrole rfl hd hx hterms
  · rintro (⟨hrole, hv⟩ | ⟨hrole, hterms⟩ | ⟨hrole, rfl, hd, hx, hterms⟩)
    · simp [contribution, hrole, hv]
    · simp [contribution, hrole, hterms]
    · simp [contribution, hrole, hd, hx, hterms]

/-- Without terms a sum stays as it is. -/
@[simp] theorem addTerms_nil (sum : Value α) : addTerms sum [] = .ok sum := rfl

/-- Terms are added one list after the other. -/
theorem addTerms_append_eq_ok {sum total : Value α} {terms more : List (Value α)} :
    addTerms sum (terms ++ more) = .ok total ↔
      ∃ mid, addTerms sum terms = .ok mid ∧ addTerms mid more = .ok total :=
  foldlM_append_eq_ok

/-- What an evaluation becomes with the contribution of node `i`. -/
structure Contribution.AddedTo (c : Contribution α) (i : Nat) (ev ev' : Evaluation α) : Prop where
  slots : ev'.slots = ev.slots.put i c.value
  parameters : ev'.parameters = ev.parameters ++ c.parameters
  prior : addTerms ev.logPrior c.prior = .ok ev'.logPrior
  likelihood : addTerms ev.logLikelihood c.likelihood = .ok ev'.logLikelihood
  jacobian : addTerms ev.logJacobian c.jacobian = .ok ev'.logJacobian

/-- Sums to which a contribution has been added, in one record. -/
theorem Contribution.addedTo_mk_iff {c : Contribution α} {i : Nat} {ev : Evaluation α}
    {slots : Slots α} {parameters : List (Identity × Value α)}
    {prior likelihood jacobian : Value α} :
    c.AddedTo i ev ⟨slots, parameters, prior, likelihood, jacobian⟩ ↔
      slots = ev.slots.put i c.value ∧ parameters = ev.parameters ++ c.parameters ∧
        addTerms ev.logPrior c.prior = .ok prior ∧
        addTerms ev.logLikelihood c.likelihood = .ok likelihood ∧
        addTerms ev.logJacobian c.jacobian = .ok jacobian :=
  ⟨fun h => ⟨h.slots, h.parameters, h.prior, h.likelihood, h.jacobian⟩,
    fun ⟨hs, hp, hprior, hlikelihood, hjacobian⟩ => ⟨hs, hp, hprior, hlikelihood, hjacobian⟩⟩

/-- A visit adds the contribution of the node. -/
theorem visit_eq_ok_iff {g : Graph} {r : Registry α} {mode : EvaluationMode} {theta : List α}
    {ev ev' : Evaluation α} {i : Nat} {n : Node} (hn : g.nodes[i]? = some n) :
    g.visit r mode theta ev i = .ok ev' ↔
      ∃ c, contribution r mode (g.environment r mode.calls ev.slots) (g.coordinate? theta i) n =
        .ok c ∧ c.AddedTo i ev ev' := by
  obtain ⟨slots, parameters, prior, likelihood, jacobian⟩ := ev'
  unfold visit contribution
  rw [hn]
  dsimp only
  cases n.role with
  | logical e =>
    simp only [bind_eq_ok, pure_eq_ok, Contribution.addedTo_mk_iff]
    constructor
    · rintro ⟨v, hv, heq⟩
      cases heq
      exact ⟨_, ⟨v, hv, rfl⟩, rfl, by simp, rfl, rfl, rfl⟩
    · rintro ⟨c, ⟨v, hv, rfl⟩, rfl, rfl, hprior, hlikelihood, hjacobian⟩
      cases hprior
      cases hlikelihood
      cases hjacobian
      exact ⟨v, hv, by simp⟩
  | observed value dist =>
    simp only [visitObserved, bind_eq_ok, pure_eq_ok, Contribution.addedTo_mk_iff]
    constructor
    · rintro ⟨terms, hterms, total, htotal, heq⟩
      cases heq
      exact ⟨_, ⟨terms, hterms, rfl⟩, rfl, by simp, rfl, htotal, rfl⟩
    · rintro ⟨c, ⟨terms, hterms, rfl⟩, rfl, rfl, hprior, hlikelihood, hjacobian⟩
      cases hprior
      cases hjacobian
      exact ⟨terms, hterms, likelihood, hlikelihood, by simp⟩
  | parameter law =>
    cases g.coordinate? theta i with
    | none => simp
    | some y =>
      simp only [visitParameter, bind_eq_ok, pure_eq_ok, Contribution.addedTo_mk_iff, Prod.exists]
      constructor
      · rintro ⟨d, hd, x, slopes, hx, total, htotal, terms, hterms, sum, hsum, heq⟩
        cases heq
        exact ⟨_, ⟨d, hd, x, slopes, hx, terms, hterms, rfl⟩, rfl, rfl, hsum, rfl, htotal⟩
      · rintro ⟨c, ⟨d, hd, x, slopes, hx, terms, hterms, rfl⟩, rfl, rfl, hprior, hlikelihood,
          hjacobian⟩
        cases hlikelihood
        exact ⟨d, hd, x, slopes, hx, jacobian, hjacobian, terms, hterms, prior, hprior, rfl⟩

/-! ## Contributions depend on references -/

section Congruence

variable {V V' : Valuation α} {r : Registry α} {calls : CallMode} {ids : List Identity}

/-- An expression depends on the values of its references only. -/
theorem eval_congr {e : Expr} (h : Expr.refsOfAll [e] = .ok ids) (hV : ∀ id ∈ ids, V id = V' id) :
    e.eval (V.environment r calls) = e.eval (V'.environment r calls) := by
  simp only [Expr.refsOfAll, bind_eq_ok, pure_eq_ok] at h
  obtain ⟨first, hfirst, _, rfl, rfl⟩ := h
  refine Expr.eval_congr e hfirst fun id hid => ?_
  rw [hV id (List.mem_append_left [] hid)]

/-- Expressions depend on the values of their references only. -/
theorem evalAll_congr {es : List Expr} (h : Expr.refsOfAll es = .ok ids)
    (hV : ∀ id ∈ ids, V id = V' id) :
    Expr.evalAll (V.environment r calls) es = Expr.evalAll (V'.environment r calls) es := by
  refine Expr.evalAll_congr es h fun id hid => ?_
  rw [hV id hid]

/-- An optional bound depends on the values of its references only. -/
theorem mapM_eval_congr {bound : Option Expr} (h : Expr.refsOfAll bound.toList = .ok ids)
    (hV : ∀ id ∈ ids, V id = V' id) :
    bound.mapM (Expr.eval (V.environment r calls)) =
      bound.mapM (Expr.eval (V'.environment r calls)) := by
  cases bound with
  | none => rfl
  | some e =>
    have he : e.eval (V.environment r calls) = e.eval (V'.environment r calls) := eval_congr h hV
    simp only [Option.mapM_some, he]

/-- A distribution depends on the references of its parameters and bounds only. -/
theorem bindDist_congr {law : Dist} (h : Expr.refsOfAll law.parts = .ok ids)
    (hV : ∀ id ∈ ids, V id = V' id) :
    bindDist r (V.environment r calls) law = bindDist r (V'.environment r calls) law := by
  unfold Dist.parts Dist.bounds at h
  obtain ⟨ps, bs, hps, hbs, rfl⟩ := Expr.refsOfAll_append.mp h
  obtain ⟨ls, us, hls, hus, rfl⟩ := Expr.refsOfAll_append.mp hbs
  have hparams : Expr.evalAll (V.environment r calls) law.params =
      Expr.evalAll (V'.environment r calls) law.params :=
    evalAll_congr hps fun id hid => hV id (List.mem_append_left _ hid)
  have hlower : law.lower.mapM (Expr.eval (V.environment r calls)) =
      law.lower.mapM (Expr.eval (V'.environment r calls)) :=
    mapM_eval_congr hls fun id hid =>
      hV id (List.mem_append_right ps (List.mem_append_left us hid))
  have hupper : law.upper.mapM (Expr.eval (V.environment r calls)) =
      law.upper.mapM (Expr.eval (V'.environment r calls)) :=
    mapM_eval_congr hus fun id hid =>
      hV id (List.mem_append_right ps (List.mem_append_right ls hid))
  unfold bindDist
  rw [hparams, hlower, hupper]

/-- The contribution of a node depends on the references of its role only. -/
theorem contribution_congr {mode : EvaluationMode} {coordinate : Option α} {n : Node}
    (h : Expr.refsOfAll n.role.parts = .ok ids) (hV : ∀ id ∈ ids, V id = V' id) :
    contribution r mode (V.environment r calls) coordinate n =
      contribution r mode (V'.environment r calls) coordinate n := by
  unfold contribution
  cases hrole : n.role with
  | logical e =>
    rw [hrole] at h
    have he : e.eval (V.environment r calls) = e.eval (V'.environment r calls) := eval_congr h hV
    simp only [he]
  | observed value dist =>
    cases dist with
    | none => rfl
    | some law =>
      rw [hrole] at h
      have hlaw : bindDist r (V.environment r calls) law =
          bindDist r (V'.environment r calls) law := bindDist_congr h hV
      simp only [observedTerms, hlaw]
  | parameter law =>
    rw [hrole] at h
    have hlaw : bindDist r (V.environment r calls) law =
        bindDist r (V'.environment r calls) law := bindDist_congr h hV
    simp only [hlaw]

end Congruence

/-! ## A run along an order -/

/-- With the values `slots`, node `i` contributes `c`, whose value stands in its own slot. -/
def Contributes (g : Graph) (r : Registry α) (mode : EvaluationMode) (theta : List α)
    (slots : Slots α) (i : Nat) (c : Contribution α) : Prop :=
  ∃ n, g.nodes[i]? = some n ∧ slots i = some c.value ∧
    contribution r mode (g.environment r mode.calls slots) (g.coordinate? theta i) n = .ok c

/-- The contribution of a node depends on the slots of its parents only. -/
theorem contribution_slots_congr {g : Graph} (hg : g.WellFormed) {r : Registry α}
    {mode : EvaluationMode} {calls : CallMode} {slots slots' : Slots α} {coordinate : Option α}
    {i : Nat} {n : Node} (hn : g.nodes[i]? = some n)
    (h : ∀ j ∈ g.parentLists.parents i, slots j = slots' j) :
    contribution r mode (g.environment r calls slots) coordinate n =
      contribution r mode (g.environment r calls slots') coordinate n := by
  rw [parents_of_getElem? hn] at h
  obtain ⟨refs, hrefs, hlinked⟩ := hg.linked n (List.mem_of_getElem? hn)
  rw [environment_eq, environment_eq]
  refine contribution_congr hrefs fun id hid => ?_
  have hmem : g.index? id ∈ n.parents.map some := by
    rw [← hlinked]
    exact List.mem_map_of_mem (mem_distinct.mpr hid)
  obtain ⟨j, hj, hindex⟩ := List.mem_map.mp hmem
  unfold valuation
  rw [← hindex]
  exact h j hj

/-- The contributions of nodes, added to an evaluation one after the other. -/
structure SummedTo (cs : List (Contribution α)) (ev ev' : Evaluation α) : Prop where
  parameters : ev'.parameters = ev.parameters ++ cs.flatMap (·.parameters)
  prior : addTerms ev.logPrior (cs.flatMap (·.prior)) = .ok ev'.logPrior
  likelihood : addTerms ev.logLikelihood (cs.flatMap (·.likelihood)) = .ok ev'.logLikelihood
  jacobian : addTerms ev.logJacobian (cs.flatMap (·.jacobian)) = .ok ev'.logJacobian

/-- A first contribution is added before the others. -/
theorem summedTo_cons_iff {c : Contribution α} {cs : List (Contribution α)} {i : Nat}
    {ev ev' : Evaluation α} :
    SummedTo (c :: cs) ev ev' ↔ ∃ mid, c.AddedTo i ev mid ∧ SummedTo cs mid ev' := by
  constructor
  · rintro ⟨hparameters, hprior, hlikelihood, hjacobian⟩
    rw [List.flatMap_cons, addTerms_append_eq_ok] at hprior hlikelihood hjacobian
    obtain ⟨p, hp, hprior⟩ := hprior
    obtain ⟨l, hl, hlikelihood⟩ := hlikelihood
    obtain ⟨j, hj, hjacobian⟩ := hjacobian
    refine ⟨⟨ev.slots.put i c.value, ev.parameters ++ c.parameters, p, l, j⟩,
      ⟨rfl, rfl, hp, hl, hj⟩, ?_, hprior, hlikelihood, hjacobian⟩
    rw [hparameters, List.flatMap_cons, List.append_assoc]
  · rintro ⟨mid, hmid, hcs⟩
    refine ⟨?_, ?_, ?_, ?_⟩
    · rw [hcs.parameters, hmid.parameters, List.flatMap_cons, List.append_assoc]
    · rw [List.flatMap_cons, addTerms_append_eq_ok]
      exact ⟨mid.logPrior, hmid.prior, hcs.prior⟩
    · rw [List.flatMap_cons, addTerms_append_eq_ok]
      exact ⟨mid.logLikelihood, hmid.likelihood, hcs.likelihood⟩
    · rw [List.flatMap_cons, addTerms_append_eq_ok]
      exact ⟨mid.logJacobian, hmid.jacobian, hcs.jacobian⟩

/-- A run along nodes that come after their parents succeeds exactly with the slots under which
every node contributes its own value, and with the sums of what the nodes contribute. -/
theorem foldlM_visit_eq_ok_iff {g : Graph} (hg : g.WellFormed) {r : Registry α}
    {mode : EvaluationMode} {theta : List α} {placed order : List Nat} {ev ev' : Evaluation α}
    (hfirst : g.parentLists.ParentsFirst placed order) (hnodup : (placed ++ order).Nodup)
    (hlt : ∀ i ∈ order, i < g.size) :
    order.foldlM (g.visit r mode theta) ev = .ok ev' ↔
      ∃ cs, List.Forall₂ (g.Contributes r mode theta ev'.slots) order cs ∧
        (∀ i, i ∉ order → ev'.slots i = ev.slots i) ∧ SummedTo cs ev ev' := by
  induction order generalizing placed ev with
  | nil =>
    constructor
    · rintro ⟨⟩
      exact ⟨[], .nil, fun _ _ => rfl, by simp, rfl, rfl, rfl⟩
    · rintro ⟨cs, hcs, hslots, hsum⟩
      cases hcs
      obtain ⟨slots, parameters, prior, likelihood, jacobian⟩ := ev
      obtain ⟨slots', parameters', prior', likelihood', jacobian'⟩ := ev'
      obtain ⟨hparameters, hprior, hlikelihood, hjacobian⟩ := hsum
      cases hprior
      cases hlikelihood
      cases hjacobian
      have heq : slots' = slots := funext fun i => hslots i List.not_mem_nil
      simp_all
  | cons i rest ih =>
    obtain ⟨hparents, hrest⟩ := hfirst
    obtain ⟨n, hn⟩ : ∃ n, g.nodes[i]? = some n :=
      ⟨_, List.getElem?_eq_getElem (hlt i List.mem_cons_self)⟩
    have hnodup' : ((placed ++ [i]) ++ rest).Nodup := by simpa using hnodup
    have hi : i ∉ rest := (List.nodup_cons.mp (List.nodup_append.mp hnodup).2.1).1
    have hlt' : ∀ j ∈ rest, j < g.size := fun j hj => hlt j (List.mem_cons_of_mem i hj)
    -- no later visit touches the parents of node `i`, so it contributes the same at the end
    have hkept : ∀ slots' : Slots α, (∀ j, j ∉ i :: rest → slots' j = ev.slots j) →
        contribution r mode (g.environment r mode.calls ev.slots) (g.coordinate? theta i) n =
          contribution r mode (g.environment r mode.calls slots') (g.coordinate? theta i) n := by
      intro slots' hslots'
      refine contribution_slots_congr hg hn fun j hj => (hslots' j fun hmem => ?_).symm
      exact (List.nodup_append.mp hnodup).2.2 j (hparents j hj) j hmem rfl
    rw [List.foldlM_cons, bind_eq_ok]
    constructor
    · rintro ⟨mid, hmid, hrun⟩
      obtain ⟨c, hc, hadded⟩ := (visit_eq_ok_iff hn).mp hmid
      obtain ⟨cs, hcs, hslots, hsum⟩ := (ih hrest hnodup' hlt').mp hrun
      have hafter : ∀ j, j ∉ i :: rest → ev'.slots j = ev.slots j := by
        intro j hj
        rw [List.mem_cons, not_or] at hj
        rw [hslots j hj.2, hadded.slots]
        simp [Slots.put, hj.1]
      refine ⟨c :: cs, .cons ⟨n, hn, ?_, hkept _ hafter ▸ hc⟩ hcs, hafter,
        summedTo_cons_iff.mpr ⟨mid, hadded, hsum⟩⟩
      rw [hslots i hi, hadded.slots]
      simp [Slots.put]
    · rintro ⟨_, hcs, hslots, hsum⟩
      cases hcs with
      | @cons _ c _ cs hc hcs =>
        obtain ⟨n', hn', hvalue, hc⟩ := hc
        rw [hn] at hn'
        cases hn'
        obtain ⟨mid, hadded, hsum⟩ := (summedTo_cons_iff (i := i)).mp hsum
        refine ⟨mid, (visit_eq_ok_iff hn).mpr ⟨c, hkept _ hslots ▸ hc, hadded⟩, ?_⟩
        refine (ih hrest hnodup' hlt').mpr ⟨cs, hcs, fun j hj => ?_, hsum⟩
        rw [hadded.slots]
        by_cases hji : j = i
        · subst hji
          simp [Slots.put, hvalue]
        · rw [hslots j (by simp [hji, hj])]
          simp [Slots.put, hji]

/-- An evaluation succeeds exactly with the slots under which every node contributes its own value,
and with the sums of what the nodes contribute, in the order of the graph. -/
theorem evaluate_eq_ok_iff {g : Graph} (hg : g.WellFormed) {r : Registry α}
    {mode : EvaluationMode} {theta : List α} {ev : Evaluation α} :
    g.evaluate r mode theta = .ok ev ↔
      ∃ cs, List.Forall₂ (g.Contributes r mode theta ev.slots) g.order cs ∧
        (∀ i, i ∉ g.order → ev.slots i = none) ∧ SummedTo cs Evaluation.start ev :=
  foldlM_visit_eq_ok_iff hg hg.order.parents_first (by simpa using hg.order.nodup) hg.lt_size

/-- Two evaluations of a graph, node by node: where the first one succeeds and every node
contributes the same value to the second one, only the sums of the contributions remain to be
compared. -/
theorem evaluate_of_contributions {g : Graph} (hg : g.WellFormed) {r : Registry α}
    {mode mode' : EvaluationMode} {theta theta' : List α} {ev ev' : Evaluation α}
    (h : g.evaluate r mode theta = .ok ev) {f : Contribution α → Contribution α}
    (hvalue : ∀ c, (f c).value = c.value)
    (hf : ∀ i n c, g.nodes[i]? = some n → ev.slots i = some c.value →
      contribution r mode (g.environment r mode.calls ev.slots) (g.coordinate? theta i) n = .ok c →
      contribution r mode' (g.environment r mode'.calls ev.slots) (g.coordinate? theta' i) n =
        .ok (f c))
    (hslots : ev'.slots = ev.slots)
    (hsum : ∀ cs, SummedTo cs Evaluation.start ev → SummedTo (cs.map f) Evaluation.start ev') :
    g.evaluate r mode' theta' = .ok ev' := by
  obtain ⟨cs, hcs, houtside, hcontributions⟩ := (evaluate_eq_ok_iff hg).mp h
  refine (evaluate_eq_ok_iff hg).mpr ⟨cs.map f, ?_, hslots ▸ houtside, hsum cs hcontributions⟩
  rw [hslots]
  refine List.forall₂_map_right_iff.mpr (hcs.imp fun i c hc => ?_)
  obtain ⟨n, hn, hslot, hc⟩ := hc
  exact ⟨n, hn, (hvalue c).symm ▸ hslot, hf i n c hn hslot hc⟩

omit [Scalar α] in
/-- Terms that no contribution has. -/
theorem flatMap_map_eq_nil {f : Contribution α → Contribution α}
    {terms : Contribution α → List (Value α)} (hf : ∀ c, terms (f c) = [])
    (cs : List (Contribution α)) : (cs.map f).flatMap terms = [] := by
  rw [List.flatMap_map]
  exact List.flatMap_eq_nil_iff.mpr fun c _ => hf c

end Graph

end BayesGraph
