import BayesGraph.Proofs.DrawnSamples
import BayesGraph.Proofs.Settling
import BayesGraph.Proofs.UntransformedEvaluation

/-!
# Values without densities

An evaluation can leave out the terms of the densities. Observed nodes are then not bound to their
distributions, while parameters still are, because their values depend on the supports. Node by node
both runs contribute the same values and derivatives, so where the full evaluation succeeds, the
other one ends with the same values and with nothing in the two sums (`evaluate_unscored`).

The named values that belong to a vector come from an evaluation of the second kind, and they are
those at which the density was computed. This includes a density that is traced, provided that no
function gives a result in a trace that it does not give outside (`Registry.Traceable`).
-/

set_option autoImplicit false

namespace BayesGraph

open Outcome

/-! ## Traced and direct calls -/

/-- What a function gives while a density is traced, it gives in a direct call. -/
def Registry.Traceable {α : Type} (r : Registry α) : Prop :=
  ∀ name f, r.functions.get? name = some f → ∀ xs v, f.meaning .traced xs = .ok v →
    f.meaning .direct xs = .ok v

/-- No built-in function knows how it is called. -/
theorem Builtin.uniform_operations {α : Type} [Scalar α] (rules : Rules) :
    ∀ e ∈ operations (α := α) rules, ∀ xs, e.2 .traced xs = e.2 .direct xs := by
  simp only [operations, List.forall_mem_cons, List.not_mem_nil, false_implies, implies_true,
    and_true]
  -- an operation looks at the number of its arguments, of which there are at most three
  and_intros
  all_goals
    rintro (_ | ⟨x, _ | ⟨y, _ | ⟨z, _ | ⟨w, rest⟩⟩⟩⟩)
    all_goals rfl

/-- The registry of the built-in functions and families can be traced. -/
theorem Registry.traceable_builtin {α : Type} [Scalar α] : (builtin : Registry α).Traceable := by
  intro name f h xs v hv
  obtain ⟨e, he, rfl⟩ := Table.exists_of_get?_ofList_map h
  exact (Builtin.uniform_operations .density e he xs).symm.trans hv

namespace Graph

variable {α : Type} [Scalar α] {g : Graph} {r : Registry α} {mode : EvaluationMode}
  {theta : List α} {ev : Evaluation α}

section Tracing

variable {V : Valuation α}

omit [Scalar α] in
/-- A traced call fails, or it gives what the direct one gives. -/
theorem call_settles (hr : r.Traceable) (V : Valuation α) (name : Datum) (xs : List (Value α)) :
    Settles (fun _ => True) ((V.environment r .traced).call name xs)
      ((V.environment r .direct).call name xs) := by
  unfold Environment.call Valuation.environment
  dsimp only
  cases hf : name.text?.bind r.functions.get? with
  | none => exact Settles.refl _
  | some f =>
    dsimp only
    obtain ⟨s, -, hs⟩ := Option.bind_eq_some_iff.mp hf
    cases hv : f.meaning .traced xs with
    | error e => exact Or.inr ⟨e, trivial, rfl⟩
    | ok v => exact Settles.of_eq (hr s f hs xs v hv).symm

/-- A traced expression fails, or it has the value that it has otherwise. -/
theorem eval_traced_settles (hr : r.Traceable) (V : Valuation α) (e : Expr) :
    Settles (fun _ => True) (e.eval (V.environment r .traced))
      (e.eval (V.environment r .direct)) := by
  have hrules : (V.environment r .traced).rules = (V.environment r .direct).rules := rfl
  exact Expr.eval_settles hrules (fun _ => Settles.refl _) (call_settles hr V) e

/-- A traced distribution fails to be bound, or it has the parameters and bounds that it has
otherwise. -/
theorem bindDist_settles (hr : r.Traceable) (V : Valuation α) (law : Dist) :
    Settles (fun _ => True) (bindDist r (V.environment r .traced) law)
      (bindDist r (V.environment r .direct) law) := by
  have hrules : (V.environment r .traced).rules = (V.environment r .direct).rules := rfl
  have hbound (bound : Option Expr) := Settles.optionMapM fun e (_ : bound = some e) =>
    eval_traced_settles hr V e
  unfold bindDist
  refine Settles.bind ?_ fun params _ => ?_
  · exact Expr.evalAll_settles hrules (fun _ => Settles.refl _) (call_settles hr V) law.params
  refine Settles.bind (hbound law.lower) fun lower _ => ?_
  exact Settles.bind (hbound law.upper) fun upper _ => Settles.refl _

/-- A node contributes to a direct evaluation what it contributes to a traced one. -/
theorem contribution_direct (hr : r.Traceable) {transformed score : Bool} {coordinate : Option α}
    {n : Node} {c : Contribution α}
    (h : contribution r ⟨transformed, score, .traced⟩ (V.environment r .traced) coordinate n =
      .ok c) :
    contribution r ⟨transformed, score, .direct⟩ (V.environment r .direct) coordinate n =
      .ok c := by
  have hsettles : Settles (fun _ => True)
      (contribution r ⟨transformed, score, .traced⟩ (V.environment r .traced) coordinate n)
      (contribution r ⟨transformed, score, .direct⟩ (V.environment r .direct) coordinate n) := by
    unfold contribution
    cases n.role with
    | logical e => exact Settles.bind (eval_traced_settles hr V e) fun v _ => Settles.refl _
    | observed value dist =>
      refine Settles.bind ?_ fun terms _ => Settles.refl _
      cases dist with
      | none => exact Settles.refl _
      | some law =>
        dsimp only [observedTerms]
        split
        · exact Settles.bind (bindDist_settles hr V law) fun d _ => Settles.refl _
        · exact Settles.refl _
    | parameter law =>
      cases coordinate with
      | none => exact Settles.refl _
      | some y => exact Settles.bind (bindDist_settles hr V law) fun d _ => Settles.refl _
  exact hsettles.eq_ok h

/-- What a traced evaluation gives, a direct one gives. -/
theorem evaluate_direct (hg : g.WellFormed) (hr : r.Traceable) {transformed score : Bool}
    (h : g.evaluate r ⟨transformed, score, .traced⟩ theta = .ok ev) :
    g.evaluate r ⟨transformed, score, .direct⟩ theta = .ok ev := by
  refine evaluate_of_contributions hg h (f := id) (fun _ => rfl)
    (fun i n c _ _ hc => contribution_direct hr hc) rfl fun cs hsum => ?_
  rw [List.map_id]
  exact hsum

end Tracing

/-! ## Evaluations without terms -/

/-- Without the terms of densities, an evaluation has the same values and the same derivatives, and
the sums of the terms are zero. -/
theorem evaluate_unscored (hg : g.WellFormed) (h : g.evaluate r mode theta = .ok ev) :
    g.evaluate r { mode with score := false } theta =
      .ok { ev with
        logPrior := .real (Scalar.ofInt 0)
        logLikelihood := .real (Scalar.ofInt 0) } := by
  refine evaluate_of_contributions hg h (f := fun c => { c with prior := [], likelihood := [] })
    (fun _ => rfl) (fun i n c hn _ hc => contribution_silent hc) rfl
    fun cs hsum => ⟨?_, ?_, ?_, ?_⟩
  · simpa only [List.flatMap_map] using hsum.parameters
  · rw [flatMap_map_eq_nil fun _ => rfl]
    rfl
  · rw [flatMap_map_eq_nil fun _ => rfl]
    rfl
  · simpa only [List.flatMap_map] using hsum.jacobian

/-! ## Reported values -/

/-- The values of an evaluation that are named: those of the parameters, and those of the logical
nodes if they are included. -/
def namedValues (g : Graph) (ev : Evaluation α) (logical : Bool) : List (Identity × Value α) :=
  if logical then ev.parameters ++ g.logicalValues ev.slots else ev.parameters

/-- The named values of an evaluation, as numbers. -/
def reported (g : Graph) (ev : Evaluation α) (logical : Bool) :
    Except EvalError (List (Identity × α)) :=
  (g.namedValues ev logical).mapM fun (id, v) => do
    return (id, ← v.toScalar)

/-- A number that is reported is the value of its name. -/
theorem value_of_reported (hg : g.WellFormed) (h : g.evaluate r mode theta = .ok ev)
    {logical : Bool} {values : List (Identity × α)} (hvalues : g.reported ev logical = .ok values)
    {id : Identity} {x : α} (hx : (id, x) ∈ values) :
    ∃ v, g.valuation ev.slots id = some v ∧ v.toScalar = .ok x := by
  obtain ⟨⟨id', v⟩, hmem, hv⟩ := exists_of_forall₂ (mapM_eq_ok.mp hvalues).flip hx
  simp only [bind_eq_ok, pure_eq_ok, Prod.mk.injEq] at hv
  obtain ⟨y, hy, rfl, rfl⟩ := hv
  exact ⟨v, valuation_of_named hg h hmem, hy⟩

/-- A column has one number for each of some evaluations: the value that its name has there. -/
structure IsColumn (g : Graph) (evs : List (Evaluation α)) (id : Identity) (t : Tensor α) :
    Prop where
  shape : t.shape = [evs.length]
  entries : List.Forall₂ (fun ev x => ∃ v, g.valuation ev.slots id = some v ∧ v.toScalar = .ok x)
    evs t.entries

/-- The values that a vector is taken to are those of the evaluation at it, terms included. -/
theorem unflatten_of_evaluate (hg : g.WellFormed) {transformed : Bool} {calls : CallMode}
    (h : g.evaluate r { transformed, calls } theta = .ok ev)
    (hcalls : calls = .direct ∨ r.Traceable) (logical : Bool) :
    g.unflatten r transformed logical theta = g.reported ev logical := by
  have hdirect : g.evaluate r { transformed } theta = .ok ev := by
    cases calls with
    | direct => exact h
    | traced =>
      have hr := hcalls.resolve_left CallMode.noConfusion
      exact evaluate_direct hg hr h
  unfold unflatten
  rw [evaluate_unscored hg hdirect]
  rfl

/-- Evaluates a graph at an array, which has to be a vector of the right length. -/
def evaluateAt (g : Graph) (r : Registry α) (mode : EvaluationMode) (theta : Tensor α) :
    Except Failure (Evaluation α) := do
  let coordinates ← g.checkDimension theta
  g.evaluate r mode coordinates

omit [Scalar α] in
/-- An array is accepted as coordinates if it has one entry for each of them. -/
theorem checkDimension_eq_ok_iff {theta : Tensor α} {coordinates : List α} :
    g.checkDimension theta = .ok coordinates ↔
      theta.shape = [g.dimension] ∧ theta.entries = coordinates := by
  unfold checkDimension
  split
  · next hshape => simp [hshape]
  · next hshape => simp [hshape]

/-- An evaluation at an array is one at its entries, if there are as many as coordinates. -/
theorem evaluateAt_eq_ok_iff {theta : Tensor α} :
    g.evaluateAt r mode theta = .ok ev ↔
      theta.shape = [g.dimension] ∧ g.evaluate r mode theta.entries = .ok ev := by
  simp only [evaluateAt, bind_eq_ok, checkDimension_eq_ok_iff, lift_eval_eq_ok]
  constructor
  · rintro ⟨_, ⟨hshape, rfl⟩, h⟩
    exact ⟨hshape, h⟩
  · rintro ⟨hshape, h⟩
    exact ⟨_, ⟨hshape, rfl⟩, h⟩

end Graph

namespace CompiledModel

variable {α : Type} [Scalar α] {c : CompiledModel α}

/-- The evaluation that the density of a compiled model is the sum of. -/
abbrev densityMode (c : CompiledModel α) : EvaluationMode :=
  { transformed := c.transformed, calls := c.calls }

/-- A vector is taken to the values at which the density is computed. -/
theorem unflatten_of_evaluateAt (hc : c.graph.WellFormed)
    (hcalls : c.calls = .direct ∨ c.registry.Traceable) {theta : Tensor α} {ev : Evaluation α}
    (h : c.graph.evaluateAt c.registry c.densityMode theta = .ok ev) (logical : Bool) :
    c.unflatten logical theta = (liftM (c.graph.reported ev logical) : Except Failure _) := by
  obtain ⟨hshape, h⟩ := Graph.evaluateAt_eq_ok_iff.mp h
  have hcoordinates := Graph.checkDimension_eq_ok_iff.mpr ⟨hshape, rfl⟩
  unfold unflatten
  rw [hcoordinates, ok_bind, Graph.unflatten_of_evaluate hc h hcalls logical]

omit [Scalar α] in
/-- The columns of rows that have the same names are named in this way. -/
theorem keys_of_collectRows {names : List Identity} {rows : List (List (Identity × α))}
    (hnames : ∀ row ∈ rows, row.map Prod.fst = names) (hrows : rows ≠ []) :
    (collectRows rows).map Prod.fst = names := by
  cases rows with
  | nil => exact absurd rfl hrows
  | cons row rows =>
    rw [← hnames row List.mem_cons_self, collectRows, List.map_map]
    rfl

/-- The columns that are collected from what evaluations report have the values there. -/
theorem isColumn_of_collectRows {g : Graph} (hg : g.WellFormed) {r : Registry α}
    {mode : EvaluationMode} {logical : Bool} {evs : List (Evaluation α)}
    {reports : List (List (Identity × α))}
    (hruns : ∀ ev ∈ evs, ∃ theta, g.evaluate r mode theta = .ok ev)
    (hreports : List.Forall₂ (fun ev values => g.reported ev logical = .ok values) evs reports)
    (hnames : ∀ row ∈ reports, row.map Prod.fst = g.identities (g.named logical))
    {id : Identity} {t : Tensor α} (ht : (id, t) ∈ collectRows reports) :
    g.IsColumn evs id t := by
  have hnodup := hg.nodup_identities (hg.nodup_named logical)
  obtain ⟨hshape, hcolumn⟩ := columns_of_collectRows hnodup hnames ht
  refine ⟨hreports.length_eq ▸ hshape, ?_⟩
  have hboth := (List.forall₂_and_left _ _).mpr ⟨hruns, hreports⟩
  refine forall₂_trans (fun ev values x hev hx => ?_) hboth hcolumn
  obtain ⟨⟨theta, hrun⟩, hvalues⟩ := hev
  exact Graph.value_of_reported hg hrun hvalues ((hx x).mpr rfl)

/-- Rows at which the density is computed are taken to columns with the values there. -/
theorem exists_samples (hc : c.graph.WellFormed)
    (hcalls : c.calls = .direct ∨ c.registry.Traceable) {theta : Tensor α} {rows : List (Tensor α)}
    (hrank : theta.rank ≠ 1) (hrows : theta.rows? = some rows) {evs : List (Evaluation α)}
    (hevs : List.Forall₂ (fun row ev => c.graph.evaluateAt c.registry c.densityMode row = .ok ev)
      rows evs) {logical : Bool}
    (hreported : ∀ ev ∈ evs, ∃ values, c.graph.reported ev logical = .ok values) :
    ∃ columns, c.samples logical theta = .ok columns ∧
      (rows ≠ [] → columns.map Prod.fst = c.graph.identities (c.graph.named logical)) ∧
      ∀ id t, (id, t) ∈ columns → c.graph.IsColumn evs id t := by
  obtain ⟨reports, hreports⟩ := exists_forall₂ hreported
  have hvalues : List.Forall₂ (fun row values => c.unflatten logical row = .ok values) rows
      reports := by
    refine forall₂_trans (fun row ev values hev hvalues => ?_) hevs hreports
    rw [unflatten_of_evaluateAt hc hcalls hev logical]
    exact lift_eval_eq_ok.mpr hvalues
  have hnames : ∀ row ∈ reports, row.map Prod.fst = c.graph.identities (c.graph.named logical) := by
    intro row hrow
    obtain ⟨theta', -, htheta'⟩ := exists_of_forall₂ hvalues.flip hrow
    exact keys_of_unflatten hc htheta'
  have hruns : ∀ ev ∈ evs, ∃ row, c.graph.evaluate c.registry c.densityMode row = .ok ev := by
    intro ev hev
    obtain ⟨row, -, hrow⟩ := exists_of_forall₂ hevs.flip hev
    exact ⟨row.entries, (Graph.evaluateAt_eq_ok_iff.mp hrow).2⟩
  unfold samples
  rw [if_neg hrank, hrows]
  dsimp only
  rw [mapM_eq_ok.mpr hvalues, ok_bind]
  split
  · next hempty =>
    -- without rows there are no evaluations, and the columns are empty
    obtain rfl : reports = [] := List.isEmpty_iff.mp hempty
    cases hreports
    cases hevs
    refine ⟨_, rfl, fun hne => absurd rfl hne, fun id t ht => ?_⟩
    obtain ⟨_, -, heq⟩ := List.mem_map.mp ht
    cases heq
    exact ⟨rfl, .nil⟩
  · next hsome =>
    have hne : reports ≠ [] := fun hnil => hsome (List.isEmpty_iff.mpr hnil)
    exact ⟨_, rfl, fun _ => keys_of_collectRows hnames hne,
      fun id t ht => isColumn_of_collectRows hc hruns hreports hnames ht⟩

/-- The values and the densities of a compiled model belong together. Where an evaluation of a built
graph succeeds, so does the evaluation that leaves out the terms of the densities. It has the same
values of all nodes, the same parameters and the same log-Jacobian, and its log-prior and its
log-likelihood are zero. So a vector at which the density is computed is taken to the values of that
evaluation, read as numbers, and a matrix of such vectors to columns with these numbers. This holds
of constrained and of unconstrained coordinates. A density that is traced needs functions that give
outside of a trace what they give in it. -/
theorem values_of_build {β : Type} [Scalar β] {m : Model} {bindings : Table String Datum}
    {r₀ : Registry β} {g : Graph} (hg : (Graph.build m bindings r₀).collect.1 = .ok g)
    (r : Registry α) (transformed : Bool) (calls : CallMode) :
    (∀ theta ev, g.evaluateAt r { transformed, calls } theta = .ok ev →
      g.evaluateAt r { transformed, score := false, calls } theta =
        .ok { ev with
          logPrior := .real (Scalar.ofInt 0)
          logLikelihood := .real (Scalar.ofInt 0) }) ∧
    (calls = .direct ∨ r.Traceable → ∀ (initial : List α) (logical : Bool),
      let c : CompiledModel α := ⟨m, r, g, transformed, calls, initial⟩
      (∀ theta ev, g.evaluateAt r { transformed, calls } theta = .ok ev →
        c.unflatten logical theta = (liftM (g.reported ev logical) : Except Failure _) ∧
        c.samples logical theta = (do
          let values ← (g.reported ev logical : Except EvalError _)
          return values.map fun (id, x) => (id, .scalar x))) ∧
      (∀ theta rows evs, theta.rank ≠ 1 → theta.rows? = some rows →
        List.Forall₂ (fun row ev => g.evaluateAt r { transformed, calls } row = .ok ev) rows evs →
        (∀ ev ∈ evs, ∃ values, g.reported ev logical = .ok values) →
        ∃ columns, c.samples logical theta = .ok columns ∧
          (rows ≠ [] → columns.map Prod.fst = g.identities (g.named logical)) ∧
          ∀ id t, (id, t) ∈ columns → g.IsColumn evs id t) ∧
      (∀ theta coordinates t, g.checkDimension theta = .ok coordinates →
        (c.logDensity coordinates).collect.1 = .ok t → Scalar.bottom ∉ t.entries →
        ∃ ev v, g.evaluateAt r { transformed, calls } theta = .ok ev ∧ ev.logDensity = .ok v ∧
          v.toTensor = .ok t)) := by
  have hwf := Graph.wellFormed_of_build hg
  refine ⟨fun theta ev h => ?_, fun hcalls initial logical => ⟨?_, ?_, ?_⟩⟩
  · obtain ⟨hshape, h⟩ := Graph.evaluateAt_eq_ok_iff.mp h
    exact Graph.evaluateAt_eq_ok_iff.mpr ⟨hshape, Graph.evaluate_unscored hwf h⟩
  · intro theta ev h
    have hvalues := unflatten_of_evaluateAt (c := ⟨m, r, g, transformed, calls, initial⟩) hwf
      hcalls h logical
    have hrank : theta.rank = 1 := congrArg List.length (Graph.evaluateAt_eq_ok_iff.mp h).1
    refine ⟨hvalues, ?_⟩
    unfold samples
    rw [if_pos hrank, hvalues]
  · intro theta rows evs hrank hrows hevs hreported
    exact exists_samples (c := ⟨m, r, g, transformed, calls, initial⟩) hwf hcalls hrank hrows hevs
      hreported
  · intro theta coordinates t hcoordinates ht hfinite
    obtain ⟨hshape, rfl⟩ := Graph.checkDimension_eq_ok_iff.mp hcoordinates
    obtain ⟨ev, v, hev, hv, hvt⟩ := Graph.toTensor_of_logDensity ht hfinite
    exact ⟨ev, v, Graph.evaluateAt_eq_ok_iff.mpr ⟨hshape, hev⟩, hv, hvt⟩

/-- A parameter `a` between 0 and 1, a parameter `b` between `a` and the logical node `s`, which
depends on `a`, and an observation `y` with the mean `b`. -/
def boundedModel : Model where
  statements :=
    [.sample [] (.var (.text "a"))
      (.dist { name := .text "dunif", params := [.literal (.int 0), .literal (.int 1)] }),
    .assign [] (.var (.text "s")) (.add (.var (.text "a")) (.literal (.int 1))),
    .sample [] (.var (.text "b"))
      (.dist { name := .text "dunif", params := [.var (.text "a"), .var (.text "s")] }),
    .sample [] (.var (.text "y"))
      (.dist { name := .text "dnorm", params := [.var (.text "b"), .literal (.int 1)] })]

/-- The data are the only constants of the model. -/
theorem constants_boundedModel :
    Folding.constants (Registry.builtin : Registry Dual).foldingFunctions boundedModel.statements
      Graph.shiftBindings =
        .ok (Graph.shiftBindings.values.map fun n => n.map Scalar.ofDouble) := by
  unfold Folding.constants Folding.saturate
  rfl

/-- The model is evaluated at two coordinates, with its density traced. The vector is taken to the
values of this evaluation, and the matrix with this vector as its only row to columns with them. -/
theorem values_boundedModel : ∃ g ev values columns,
    (Graph.build boundedModel Graph.shiftData (Registry.builtin : Registry Dual)).collect.1 =
      .ok g ∧
    (Registry.builtin : Registry Dual).Traceable ∧
    g.evaluateAt (Registry.builtin : Registry Dual) { calls := .traced }
      (.ofList [Scalar.ofInt 0, Scalar.ofInt 1]) = .ok ev ∧
    g.evaluateAt (Registry.builtin : Registry Dual) { score := false, calls := .traced }
      (.ofList [Scalar.ofInt 0, Scalar.ofInt 1]) =
        .ok { ev with
          logPrior := .real (Scalar.ofInt 0)
          logLikelihood := .real (Scalar.ofInt 0) } ∧
    values.map Prod.fst = [⟨"a", []⟩, ⟨"b", []⟩, ⟨"s", []⟩] ∧
    (⟨boundedModel, Registry.builtin, g, true, .traced, []⟩ : CompiledModel Dual).unflatten true
      (.ofList [Scalar.ofInt 0, Scalar.ofInt 1]) = .ok values ∧
    (⟨boundedModel, Registry.builtin, g, true, .traced, []⟩ : CompiledModel Dual).samples true
      ⟨[1, 2], [Scalar.ofInt 0, Scalar.ofInt 1], rfl⟩ = .ok columns ∧
    ∀ id t, (id, t) ∈ columns → g.IsColumn [ev] id t := by
  obtain ⟨g, hg, ev, hev, values, hvalues, hnames⟩ :
      ∃ g, (Graph.build boundedModel Graph.shiftData
          (Registry.builtin : Registry Dual)).collect.1 = .ok g ∧
        ∃ ev, g.evaluateAt (Registry.builtin : Registry Dual) { calls := .traced }
            (.ofList [Scalar.ofInt 0, Scalar.ofInt 1]) = .ok ev ∧
          ∃ values, g.reported ev true = .ok values ∧
            values.map Prod.fst = [⟨"a", []⟩, ⟨"b", []⟩, ⟨"s", []⟩] := by
    rw [Graph.build_of_constants Graph.flatten_shiftData constants_boundedModel]
    decide +kernel
  have htraceable := Registry.traceable_builtin (α := Dual)
  obtain ⟨hunscored, hreported⟩ :=
    values_of_build hg (Registry.builtin : Registry Dual) true .traced
  obtain ⟨hvector, hmatrix, -⟩ := hreported (Or.inr htraceable) [] true
  obtain ⟨columns, hcolumns, -, hentries⟩ := hmatrix
    ⟨[1, 2], [Scalar.ofInt 0, Scalar.ofInt 1], rfl⟩ _ [ev] (by decide) rfl (.cons hev .nil)
    (List.forall_mem_singleton.mpr ⟨values, hvalues⟩)
  refine ⟨g, ev, values, columns, hg, htraceable, hev, hunscored _ ev hev, hnames, ?_, hcolumns,
    hentries⟩
  rw [(hvector _ ev hev).1, hvalues]
  rfl

end CompiledModel

end BayesGraph
