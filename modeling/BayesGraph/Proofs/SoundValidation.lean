import BayesGraph.Proofs.AdmissibleBuild
import BayesGraph.Proofs.Jacobian
import BayesGraph.Proofs.Renumbering

/-!
# Validation is sound

A graph whose expressions are resolved is evaluated with admissible failures only. With the passes
of the build this makes validation sound for the whole way from a model to its density: if a model
is valid and its names are used without ambiguity, none of the branches for what such a model can
not contain is ever taken, whatever the data, the functions and the coordinates are
(`Graph.sound_of_check`).
-/

set_option autoImplicit false

namespace BayesGraph

open Outcome

namespace Graph

variable {α : Type} [Scalar α] {r : Registry α} {g : Graph} {calls : CallMode} {slots : Slots α}

omit [Scalar α] in
/-- The value of a node is looked up without an impossible error. -/
theorem evaluable_environment (id : Identity) :
    Evaluable ((g.environment r calls slots).lookup id) := by
  unfold environment
  dsimp only
  split
  · exact .ok _
  · exact .error nofun

/-- The values of the parameters and bounds of a resolved distribution fail admissibly. -/
theorem admissible_bindDist {law : Dist} (h : ∀ e ∈ law.parts, e.Resolved) :
    FailsWith (EvalError.Admissible r.functions)
      (bindDist r (g.environment r calls slots) law) := by
  have heval : ∀ e ∈ law.parts, FailsWith (EvalError.Admissible r.functions)
      (e.eval (g.environment r calls slots)) :=
    fun e he => (h e he).admissible_eval evaluable_environment
  unfold Dist.parts Dist.bounds at heval
  unfold bindDist
  refine (Expr.admissible_evalAll fun e he => heval e (List.mem_append_left _ he)).bind
    fun params => ?_
  refine (FailsWith.optionMapM fun e he => heval e ?_).bind fun lower => ?_
  · exact List.mem_append_right _ (List.mem_append_left _ (Option.mem_toList.mpr he))
  refine (FailsWith.optionMapM fun e he => heval e ?_).bind fun upper => ?_
  · exact List.mem_append_right _ (List.mem_append_right _ (Option.mem_toList.mpr he))
  split
  · exact .pure _
  · exact .error nofun

/-- Terms are added up without an impossible error. -/
theorem evaluable_addTerms (sum : Value α) (terms : List (Value α)) :
    Evaluable (addTerms sum terms) :=
  FailsWith.foldlM (fun t _ s => Value.evaluable_add s t) sum

/-- The terms of the density of a value are computed without an impossible error. -/
theorem evaluable_densityTerms (mode : EvaluationMode) (d : BoundDist α) (x : Value α) :
    Evaluable (densityTerms mode d x) := by
  unfold densityTerms
  split
  · exact (d.evaluable_logPdf x).bind fun v => .pure _
  · exact .pure _

/-- A parameter is located without an impossible error. -/
theorem evaluable_locate (mode : EvaluationMode) (d : BoundDist α) (y : α) :
    Evaluable (locate mode d y) := by
  unfold locate
  split
  · exact (d.evaluable_toConstrained _).bind fun _ => .pure _
  · exact .pure _

/-- The visit of a node with resolved expressions fails admissibly. -/
theorem admissible_visit (hnodes : ∀ n ∈ g.nodes, ∀ e ∈ n.role.parts, e.Resolved)
    (mode : EvaluationMode) (theta : List α) (ev : Evaluation α) (i : Nat) :
    FailsWith (EvalError.Admissible r.functions) (g.visit r mode theta ev i) := by
  unfold visit
  dsimp only
  split
  · exact .pure _
  · next n hn =>
    have hparts := hnodes n (List.mem_of_getElem? hn)
    split
    · next e hrole =>
      rw [hrole] at hparts
      have he : e.Resolved := hparts e (List.mem_singleton_self e)
      exact (he.admissible_eval evaluable_environment).bind fun v => .pure _
    · next value dist hrole =>
      rw [hrole] at hparts
      refine FailsWith.bind ?_ fun terms => ?_
      · unfold observedTerms
        split
        · exact .pure _
        · split
          · exact (admissible_bindDist hparts).bind fun d =>
              (evaluable_densityTerms _ d _).admissible
          · exact .pure _
      · exact (evaluable_addTerms _ terms).admissible.bind fun likelihood => .pure _
    · next law hrole =>
      rw [hrole] at hparts
      split
      · refine (admissible_bindDist hparts).bind fun d => ?_
        refine (evaluable_locate mode d _).admissible.bind fun (x, slopes) => ?_
        refine (evaluable_addTerms _ slopes).admissible.bind fun jacobian => ?_
        refine (evaluable_densityTerms mode d x).admissible.bind fun terms => ?_
        exact (evaluable_addTerms _ terms).admissible.bind fun prior => .pure _
      · exact .error nofun

/-- The evaluation of a graph with resolved expressions fails admissibly. -/
theorem admissible_evaluate (hnodes : ∀ n ∈ g.nodes, ∀ e ∈ n.role.parts, e.Resolved)
    (mode : EvaluationMode) (theta : List α) :
    FailsWith (EvalError.Admissible r.functions) (g.evaluate r mode theta) :=
  FailsWith.foldlM (fun i _ ev => admissible_visit hnodes mode theta ev i) _

/-- So does its density. -/
theorem admissible_logDensity (hnodes : ∀ n ∈ g.nodes, ∀ e ∈ n.role.parts, e.Resolved)
    (transformed : Bool) (calls : CallMode) (theta : List α) :
    FailsWith (Failure.Admissible r.functions)
      (g.logDensity r transformed calls theta).collect.1 := by
  have htotal : FailsWith (EvalError.Admissible r.functions) (do
      (← g.evaluate r { transformed, calls } theta).logDensity) := by
    refine (admissible_evaluate hnodes _ theta).bind fun ev => ?_
    exact Evaluable.admissible ((Value.evaluable_add _ _).bind fun v => Value.evaluable_add _ _)
  rw [logDensity_result]
  split
  · exact (FailsWith.lift_eval (Value.evaluable_toTensor _).admissible).bind fun t => .pure _
  · next e he =>
    split
    · exact .ok _
    · exact .error (htotal e he)

/-- So do the named values of a vector. -/
theorem admissible_unflatten (hnodes : ∀ n ∈ g.nodes, ∀ e ∈ n.role.parts, e.Resolved)
    (transformed includeLogical : Bool) (theta : List α) :
    FailsWith (EvalError.Admissible r.functions)
      (g.unflatten r transformed includeLogical theta) := by
  refine (admissible_evaluate hnodes _ theta).bind fun ev => ?_
  refine FailsWith.mapM fun (id, v) _ => ?_
  exact (Value.evaluable_toScalar v).admissible.bind fun x => .pure _

/-- A value is placed without an impossible error. -/
theorem evaluable_place (d : BoundDist α) (transformed : Bool) (assigned : Option (Value α)) :
    Evaluable (place d transformed assigned) := by
  unfold place
  dsimp only
  split
  · split
    · exact (d.evaluable_toUnconstrained _).bind fun y => .pure _
    · exact (FailsWith.pure _).bind fun y => .pure _
  · exact (d.evaluable_toConstrained _).bind fun _ => .pure _

/-- So does the vector of an assignment. -/
theorem admissible_flatten (hnodes : ∀ n ∈ g.nodes, ∀ e ∈ n.role.parts, e.Resolved)
    (assignment : Assignment α) (transformed : Bool) :
    FailsWith (Failure.Admissible r.functions)
      (g.flatten r assignment transformed).collect.1 := by
  have hnode : ∀ (f : Flattening α) (i : Nat), LogsFailure (Failure.Admissible r.functions)
      (g.flattenNode r assignment transformed f i) := by
    intro f i
    unfold flattenNode
    dsimp only
    split
    · exact .pure _
    · next n hn =>
      have hparts := hnodes n (List.mem_of_getElem? hn)
      split
      · next e hrole =>
        rw [hrole] at hparts
        have he : e.Resolved := hparts e (List.mem_singleton_self e)
        refine LogsFailure.bind ?_ fun v => .pure _
        unfold logicalOrNaN
        split
        · exact .pure _
        · next err herr =>
          split
          · exact (LogsFailure.emit _ _).bind fun _ => .pure _
          · exact .throw (he.admissible_eval evaluable_environment err herr)
      · exact .pure _
      · next law hrole =>
        rw [hrole] at hparts
        refine (LogsFailure.lift_eval (admissible_bindDist hparts)).bind fun d => ?_
        refine (LogsFailure.lift_eval (evaluable_place d _ _).admissible).bind fun (x, y) => ?_
        exact (LogsFailure.lift_eval (Value.evaluable_toScalar y).admissible).bind
          fun coordinate => .pure _
  have hall : LogsFailure (Failure.Admissible r.functions)
      (g.flatten r assignment transformed) := by
    unfold flatten
    refine (LogsFailure.foldlM (fun i _ f => hnode f i) _).bind fun f => ?_
    dsimp only
    split
    · exact (LogsFailure.emit _ _).bind fun _ => .pure _
    · exact .pure _
  exact hall []

/-! ## From the model to the density -/

/-- Validation is sound. If validation accepts a model and its names are used without ambiguity,
then the search for the names of its variables and the printer succeed, and the build fails for none
of the reasons that validation excludes. Whatever a checked expression is resolved to consists of
numbers, references, operators and calls, and so do the definitions of the unrolled model and the
expressions of the graph. The evaluation of the graph, its density, the values of a vector and the
vector of an assignment do not fail for an unresolved expression. -/
theorem sound_of_check {m : Model} {bindings : Table String Datum} {r : Registry α}
    (hm : m.check = .ok ())
    (hnames : (Names.check m bindings.keys r.contains).collect.1 = .ok ()) :
    Succeeds (Stmt.variableNamesOfAll m.statements) ∧ Succeeds m.print ∧
    FailsWith (Failure.Admissible r.foldingFunctions) (build m bindings r).collect.1 ∧
    (∀ (ctx : Context α) site s inIndex (e e' : Expr), e.check s inIndex = .ok () →
      ctx.resolve site e = .ok e' → e'.Resolved) ∧
    (∀ u, Unrolled.make m bindings r.foldingFunctions = .ok u →
      ∀ d ∈ u.definitions, ∀ e ∈ d.meaning.parts, e.Resolved) ∧
    ∀ g, (build m bindings r).collect.1 = .ok g →
      (∀ n ∈ g.nodes, ∀ e ∈ n.role.parts, e.Resolved) ∧
      (∀ mode theta, FailsWith (EvalError.Admissible r.functions) (g.evaluate r mode theta)) ∧
      (∀ transformed calls theta, FailsWith (Failure.Admissible r.functions)
        (g.logDensity r transformed calls theta).collect.1) ∧
      (∀ transformed includeLogical theta, FailsWith (EvalError.Admissible r.functions)
        (g.unflatten r transformed includeLogical theta)) ∧
      ∀ assignment transformed, FailsWith (Failure.Admissible r.functions)
        (g.flatten r assignment transformed).collect.1 := by
  rw [(yields_check m bindings.keys r.contains).collect, bind_eq_ok] at hnames
  obtain ⟨used, hnames, -⟩ := hnames
  refine ⟨Stmt.succeeds_variableNamesOfAll m.statements hm, Model.succeeds_print hm,
    admissible_build hm hnames, fun ctx site s inIndex e e' => Context.resolved_of_resolve e,
    fun u hu => Unrolled.resolved_of_make hm hu, fun g hg => ?_⟩
  have hnodes := resolved_of_build hm hg
  exact ⟨hnodes, admissible_evaluate hnodes, admissible_logDensity hnodes,
    admissible_unflatten hnodes, admissible_flatten hnodes⟩

/-- The model with an interval is valid, its names are used without ambiguity, and its graph is
built; so its density does not fail for an unresolved expression anywhere. -/
theorem sound_intervalModel :
    intervalModel.check = .ok () ∧
    (build intervalModel Table.empty (Registry.builtin : Registry Dual)).collect.1 =
      .ok intervalGraph ∧
    ∀ transformed calls theta, FailsWith
      (Failure.Admissible (Registry.builtin : Registry Dual).functions)
      (intervalGraph.logDensity (Registry.builtin : Registry Dual) transformed calls
        theta).collect.1 := by
  have hm : intervalModel.check = .ok () := rfl
  have hnames : (Names.check intervalModel (Table.empty : Table String Datum).keys
      (Registry.builtin : Registry Dual).contains).collect.1 = .ok () := rfl
  obtain ⟨-, -, -, -, -, hgraph⟩ := sound_of_check hm hnames
  obtain ⟨-, -, hdensity, -, -⟩ := hgraph intervalGraph build_intervalModel
  exact ⟨hm, build_intervalModel, hdensity⟩

end Graph

end BayesGraph
