import BayesGraph.Proofs.AdmissibleBuild
import BayesGraph.Proofs.ResolutionTasks

/-!
# How an unrolling fails

The first pass of an unrolling asks for the bounds of loops and for the indices on left-hand sides,
the second one for the right-hand sides. `Unrolled.AsksFor` collects the tasks that the passes come
to, each with the instance and the context in which it is run. A task that fails ends the unrolling,
with its own error or with one that explains which value is not known (`Context.report`).
-/

set_option autoImplicit false

namespace BayesGraph

open Outcome

/-! ## The tasks of an instance -/

/-- The indices on a left-hand side. -/
def Expr.targetTasks : Expr → List Task
  | .index _ indices => indices.map .index
  | _ => []

/-- The tasks of a checked left-hand side are valid. -/
theorem Expr.valid_targetTasks {s : Stmt} {lhs : Expr} (h : lhs.checkTarget s = .ok ()) :
    ∀ t ∈ lhs.targetTasks, t.Valid s := by
  rcases Expr.target_cases h with ⟨name, rfl⟩ | ⟨name, indices, rfl, hindices⟩
  · exact fun t ht => absurd ht List.not_mem_nil
  · intro t ht
    obtain ⟨i, hi, rfl⟩ := List.mem_map.mp ht
    exact Expr.check_of_mem hindices hi

namespace Site

/-- What is asked for when an instance is reached: the bounds of a loop, or the indices on the
left-hand side. -/
def indexTasks (site : Site) : List Task :=
  match site.range? with
  | some (start, stop) => [.index start, .index stop]
  | none => (site.lhs?.map Expr.targetTasks).getD []

/-- What is asked for to resolve the right-hand side of an instance. -/
def meaningTasks (site : Site) : List Task :=
  match site.statement with
  | .sample _ _ (.dist d) => (d.bounds ++ d.params).map .expr
  | .assign _ _ rhs => [.expr rhs]
  | _ => []

/-- The meaning of an assignment has one task, its right-hand side. -/
theorem meaningTasks_assign {site : Site} {comment : List String} {lhs rhs : Expr}
    (hs : site.statement = .assign comment lhs rhs) : site.meaningTasks = [.expr rhs] := by
  unfold meaningTasks
  rw [hs]

/-- What the integers are used for that are asked for when an instance is reached. -/
def indexUse (site : Site) : IndexUse := if site.range?.isSome then .loopBound else .index

/-- The tasks of a valid instance are about checked expressions. -/
theorem valid_tasks {site : Site} (h : site.statement.Valid) :
    (∀ t ∈ site.indexTasks, t.Valid site.statement) ∧
      ∀ t ∈ site.meaningTasks, t.Valid site.statement := by
  obtain ⟨loops, hcheck⟩ := h
  unfold indexTasks meaningTasks range? lhs?
  generalize site.statement = s at hcheck
  rcases Stmt.check_cases hcheck with ⟨_, lhs, d, rfl, hlhs, hd⟩ | ⟨_, lhs, rhs, rfl, hlhs, hrhs⟩ |
    ⟨_, _, start, stop, _, rfl, hstart, hstop, -⟩
  · refine ⟨Expr.valid_targetTasks hlhs, fun t ht => ?_⟩
    obtain ⟨e, he, rfl⟩ := List.mem_map.mp ht
    exact Expr.check_of_mem hd (List.mem_append.mpr (List.mem_append.mp he).symm)
  · exact ⟨Expr.valid_targetTasks hlhs, List.forall_mem_singleton.mpr hrhs⟩
  · exact ⟨List.forall_mem_cons.mpr ⟨hstart, List.forall_mem_singleton.mpr hstop⟩,
      fun t ht => absurd ht List.not_mem_nil⟩

end Site

namespace Context

variable {α : Type} [Scalar α] {ctx : Context α} {site : Site}

/-- Two lists of tasks run one behind the other. -/
theorem runAll_append (ts us : List Task) :
    ctx.runAll site (ts ++ us) = (do ctx.runAll site ts; ctx.runAll site us) := by
  induction ts with
  | nil => rfl
  | cons t ts ih =>
    rw [List.cons_append, runAll_cons, runAll_cons, ih]
    cases ctx.run site t <;> rfl

/-- The bounds of a loop are its index tasks. -/
theorem runAll_bounds (start stop : Expr) :
    ctx.runAll site [.index start, .index stop] = (do
      let _ ← ctx.evalBounds site start stop) := by
  unfold evalBounds
  rw [runAll_cons, runAll_cons, run, run]
  cases ctx.evalIndex site start with
  | error f => rfl
  | ok lo => cases ctx.evalIndex site stop <;> rfl

/-- To run the tasks of indices is to evaluate the indices. -/
theorem runAll_index (is : List Expr) :
    ctx.runAll site (is.map .index) = (do let _ ← is.mapM (ctx.evalIndex site)) := by
  induction is with
  | nil => rfl
  | cons i rest ih =>
    rw [List.map_cons, runAll_cons, ih, List.mapM_cons, run]
    cases ctx.evalIndex site i with
    | error f => rfl
    | ok n => cases rest.mapM (ctx.evalIndex site) <;> rfl

/-- To run the tasks of a left-hand side is to resolve the target. -/
theorem runAll_target (name : Datum) (indices : List Expr) :
    ctx.runAll site (Expr.index name indices).targetTasks = (do
      let _ ← ctx.resolveTarget site (.index name indices)) := by
  unfold resolveTarget
  rw [Expr.targetTasks, runAll_index]
  dsimp only
  cases indices.mapM (ctx.evalIndex site) <;> rfl

/-- A left-hand side fails with the first index that does. -/
theorem resolveTarget_eq_error {lhs : Expr} {f : Failure}
    (h : ctx.runAll site lhs.targetTasks = .error f) : ctx.resolveTarget site lhs = .error f := by
  cases lhs with
  | index name indices => exact discard_eq_error.mp ((runAll_target name indices).symm.trans h)
  | _ => cases h

omit [Scalar α] in
/-- A refusal is no error of an evaluation. -/
theorem refuse_ne_eval {ν : Type} {cause : Cause} {id : Option Identity} {e : EvalError} :
    (site.refuse cause id : Except Failure ν) ≠ .error (.eval e) := by
  unfold Site.refuse
  cases site.source <;> nofun

/-- An error of an evaluation on a left-hand side comes from an index. -/
theorem runAll_of_resolveTarget {lhs : Expr} {e : EvalError}
    (h : ctx.resolveTarget site lhs = .error (.eval e)) :
    ctx.runAll site lhs.targetTasks = .error (.eval e) := by
  cases lhs with
  | index name indices => exact (runAll_target name indices).trans (discard_eq_error.mpr h)
  | var name =>
    unfold resolveTarget at h
    dsimp only at h
    split at h
    · exact absurd h refuse_ne_eval
    · cases h
  | _ => exact absurd h refuse_ne_eval

/-- To run the task of a bound that may be absent is to resolve the bound. -/
theorem runAll_option (o : Option Expr) :
    ctx.runAll site (o.toList.map .expr) = (do let _ ← o.mapM (ctx.resolve site)) := by
  cases o with
  | none => rfl
  | some e =>
    rw [Option.toList_some, runAll_expr, resolveAll]
    simp only [Option.mapM_some]
    cases ctx.resolve site e <;> rfl

/-- A distribution asks for its bounds and then for its parameters. -/
theorem runAll_dist (d : Dist) :
    ctx.runAll site ((d.bounds ++ d.params).map .expr) = (do let _ ← ctx.resolveDist site d) := by
  unfold Dist.bounds resolveDist
  rw [List.map_append, List.map_append, runAll_append, runAll_append, runAll_option, runAll_option,
    runAll_expr]
  cases d.lower.mapM (ctx.resolve site) with
  | error f => rfl
  | ok lower =>
    cases d.upper.mapM (ctx.resolve site) with
    | error f => rfl
    | ok upper => cases ctx.resolveAll site d.params <;> rfl

/-- What is reported for a failed index or bound: the explanation of a value that is not known, or
the failure itself. -/
def report (ctx : Context α) (site : Site) (use : IndexUse) : Failure → Failure
  | .eval (.notConstant id) =>
    match site.source with
    | .error e => .malformed e
    | .ok text =>
      if ctx.defined.contains (.text id.name) then .compile ⟨.notData use id, none, some text⟩
      else .compile ⟨.undefinedIndex use id, some id, some text⟩
  | f => f

omit [Scalar α] in
/-- An error is explained by the report on it. -/
theorem explain_error {ν : Type} (ctx : Context α) (site : Site) (use : IndexUse) (f : Failure) :
    ctx.explain site use (.error f : Except Failure ν) = .error (ctx.report site use f) := by
  cases f with
  | eval e =>
    cases e with
    | notConstant id =>
      unfold explain report Site.refuse
      dsimp only
      cases hdefined : ctx.defined.contains (.text id.name) <;> cases site.source <;> simp <;> rfl
    | _ => rfl
  | _ => rfl

omit [Scalar α] in
/-- An error that does not mean waiting is reported as it is. -/
theorem report_of_not_stuck {use : IndexUse} {f : Failure} (h : ¬ f.IsStuck) :
    ctx.report site use f = f := by
  unfold report
  split
  · next id => exact absurd ⟨id, rfl⟩ h
  · rfl

omit [Scalar α] in
/-- An error of an evaluation is reported as it is, unless it says that a value is not known. -/
theorem report_eq_eval_iff {use : IndexUse} {f : Failure} {e : EvalError} :
    ctx.report site use f = .eval e ↔ f = .eval e ∧ ¬ e.IsStuck := by
  by_cases hstuck : f.IsStuck
  · obtain ⟨id, rfl⟩ := hstuck
    constructor
    · intro h
      unfold report at h
      split at h
      · split at h
        · cases h
        · split at h <;> cases h
      · next hnot => exact absurd rfl (hnot id)
    · rintro ⟨heq, hknown⟩
      exact absurd ⟨id, (Failure.eval.inj heq).symm⟩ hknown
  · rw [report_of_not_stuck hstuck, iff_self_and]
    rintro rfl ⟨id, rfl⟩
    exact hstuck ⟨id, rfl⟩

omit [Scalar α] in
/-- An error of an evaluation in an explanation is that of the computation. -/
theorem explain_eq_eval {ν : Type} {use : IndexUse} {x : Except Failure ν} {e : EvalError}
    (h : ctx.explain site use x = .error (.eval e)) : x = .error (.eval e) ∧ ¬ e.IsStuck := by
  cases x with
  | ok v => cases h
  | error f =>
    rw [explain_error, Except.error.injEq, report_eq_eval_iff] at h
    exact ⟨congrArg Except.error h.1, h.2⟩

end Context

/-- The bounds of a loop fail if their evaluation does: a strict walk reports the failure, and
others pass over values that are not known. -/
theorem Walker.bounds_eq_error_iff {α σ : Type} [Scalar α] {w : Walker α σ} {state : σ}
    {site : Site} {start stop : Expr} {f' : Failure} :
    w.bounds state site start stop = .error f' ↔
      ∃ f, (w.context state).evalBounds site start stop = .error f ∧
        if w.strict then f' = (w.context state).report site .loopBound f
        else f' = f ∧ ¬ f.IsStuck := by
  have hboth : (do
      let lo ← (w.context state).evalIndex site start
      let hi ← (w.context state).evalIndex site stop
      return (lo, hi)) = (w.context state).evalBounds site start stop := rfl
  unfold bounds
  dsimp only
  rw [hboth]
  cases (w.context state).evalBounds site start stop with
  | ok b => cases w.strict <;> simp [Context.explain, Except.map]
  | error f =>
    rw [Context.explain_error]
    cases w.strict with
    | true => simp [Except.map, eq_comm]
    | false =>
      cases f with
      | eval e => cases e <;> simp [Failure.IsStuck, eq_comm]
      | _ => simp [Failure.IsStuck, eq_comm]

namespace Unrolled

variable {α : Type} [Scalar α] {context : ShapeTable → Context α} {p : Progress} {site : Site}

/-- The visit of a target goes by the left-hand side. -/
theorem visitTarget_eq (context : ShapeTable → Context α) (p : Progress) (site : Site) :
    visitTarget context p site =
      match site.lhs? with
      | none => .error (.malformed .missingPart)
      | some lhs => do
        let id ← (context p.shapes).explain site .index ((context p.shapes).resolveTarget site lhs)
        let source ← site.source
        let shapes ← p.shapes.observe id (some source)
        return ⟨shapes, (site, id) :: p.targets⟩ := by
  unfold visitTarget Site.lhs?
  cases site.statement <;> rfl

/-- The first pass fails at an instance with the first index task that does. -/
theorem registering_step_eq_error {f : Failure}
    (h : (context p.shapes).runAll site site.indexTasks = .error f) :
    (registering context).step p site =
      .error ((context p.shapes).report site site.indexUse f) := by
  unfold Walker.step Site.indexUse
  unfold Site.indexTasks at h
  cases hrange : site.range? with
  | some range =>
    obtain ⟨start, stop⟩ := range
    rw [hrange, Context.runAll_bounds, discard_eq_error] at h
    have hbounds : (registering context).bounds p site start stop =
        .error ((context p.shapes).report site .loopBound f) :=
      Walker.bounds_eq_error_iff.mpr ⟨f, h, rfl⟩
    dsimp only
    rw [hbounds]
    rfl
  | none =>
    rw [hrange] at h
    -- A site without a target evaluates no index, so it has nothing that fails.
    cases hlhs : site.lhs? with
    | none =>
      rw [hlhs] at h
      cases h
    | some lhs =>
      rw [hlhs] at h
      have htarget := Context.resolveTarget_eq_error h
      have hvisit : (registering context).visit p site =
          .error ((context p.shapes).report site .index f) := by
        refine (visitTarget_eq context p site).trans ?_
        rw [hlhs]
        dsimp only
        rw [htarget, Context.explain_error]
        rfl
      dsimp only
      rw [hvisit]
      rfl

/-- An error of an evaluation in the first pass comes from an index task. -/
theorem runAll_of_registering_step {e : EvalError}
    (h : (registering context).step p site = .error (.eval e)) :
    (context p.shapes).runAll site site.indexTasks = .error (.eval e) ∧ ¬ e.IsStuck := by
  unfold Walker.step at h
  unfold Site.indexTasks
  cases hrange : site.range? with
  | some range =>
    obtain ⟨start, stop⟩ := range
    rw [hrange] at h
    rcases bind_eq_error.mp h with hbounds | ⟨bounds, -, hrest⟩
    · obtain ⟨f, hf, hreport⟩ := Walker.bounds_eq_error_iff.mp hbounds
      obtain ⟨rfl, hknown⟩ := Context.report_eq_eval_iff.mp (Eq.symm hreport)
      dsimp only
      rw [Context.runAll_bounds, discard_eq_error]
      exact ⟨hf, hknown⟩
    · cases bounds <;> cases hrest
  | none =>
    rw [hrange] at h
    rcases bind_eq_error.mp h with hvisit | ⟨p', -, hrest⟩
    · change visitTarget context p site = _ at hvisit
      rw [visitTarget_eq] at hvisit
      cases hlhs : site.lhs? with
      | none =>
        rw [hlhs] at hvisit
        cases hvisit
      | some lhs =>
        rw [hlhs] at hvisit
        rcases bind_eq_error.mp hvisit with htarget | ⟨id, -, hrest⟩
        · obtain ⟨htarget, hknown⟩ := Context.explain_eq_eval htarget
          exact ⟨Context.runAll_of_resolveTarget htarget, hknown⟩
        -- neither the text of the instance nor the shapes are results of an evaluation
        · rcases bind_eq_error.mp hrest with hsource | ⟨source, -, hrest⟩
          · cases hs : site.source <;> rw [hs] at hsource <;> cases hsource
          · rcases bind_eq_error.mp hrest with hobserve | ⟨shapes, -, hrest⟩
            · cases hs : p.shapes.observe id (some source) <;> rw [hs] at hobserve <;>
                cases hobserve
            · cases hrest
    · cases hrest

/-- The right-hand side of an instance fails with the first of its tasks that does. -/
theorem resolveMeaning_eq_error {ctx : Context α} {f : Failure}
    (h : ctx.runAll site site.meaningTasks = .error f) : resolveMeaning ctx site = .error f := by
  unfold Site.meaningTasks at h
  unfold resolveMeaning
  split at h
  · next d hs =>
    rw [Context.runAll_dist, discard_eq_error] at h
    rw [hs]
    dsimp only
    rw [h]
    rfl
  · next rhs hs =>
    rw [← List.map_singleton, Context.runAll_expr, discard_eq_error, Context.resolveAll] at h
    rw [hs]
    dsimp only
    rcases bind_eq_error.mp h with h | ⟨_, -, hrest⟩
    · rw [h]
      rfl
    · cases hrest
  · cases h

/-- An error of an evaluation on a right-hand side comes from such a task. -/
theorem runAll_of_resolveMeaning {ctx : Context α} {e : EvalError}
    (h : resolveMeaning ctx site = .error (.eval e)) :
    ctx.runAll site site.meaningTasks = .error (.eval e) := by
  unfold resolveMeaning at h
  unfold Site.meaningTasks
  split at h
  · next d hs =>
    rcases bind_eq_error.mp h with h | ⟨_, -, hrest⟩
    · rw [hs, Context.runAll_dist, discard_eq_error]
      exact h
    · cases hrest
  · cases h
  · next rhs hs =>
    rcases bind_eq_error.mp h with h | ⟨_, -, hrest⟩
    · rw [hs]
      dsimp only
      rw [← List.map_singleton, Context.runAll_expr, discard_eq_error, Context.resolveAll, h]
      rfl
    · cases hrest
  · cases h
  · cases h

/-- The second pass fails at an instance with the first of its tasks that does. -/
theorem define_eq_error {f : Failure} {shapes : ShapeTable} (id : Identity)
    (h : (context shapes).runAll site site.meaningTasks = .error f) :
    define context shapes site id = .error ((context shapes).report site .index f) := by
  unfold define
  dsimp only
  rw [resolveMeaning_eq_error h, Context.explain_error]
  rfl

/-- An error of an evaluation in the second pass comes from such a task. -/
theorem runAll_of_define {e : EvalError} {shapes : ShapeTable} {id : Identity}
    (h : define context shapes site id = .error (.eval e)) :
    (context shapes).runAll site site.meaningTasks = .error (.eval e) ∧ ¬ e.IsStuck := by
  unfold define at h
  rcases bind_eq_error.mp h with hmeaning | ⟨meaning, -, hrest⟩
  · obtain ⟨hmeaning, hknown⟩ := Context.explain_eq_eval hmeaning
    exact ⟨runAll_of_resolveMeaning hmeaning, hknown⟩
  -- references, texts and bounds are no results of an evaluation
  · rcases bind_eq_error.mp hrest with hrefs | ⟨refs, -, hrest⟩
    · cases hs : meaning.refs <;> rw [hs] at hrefs <;> cases hrefs
    · rcases bind_eq_error.mp hrest with hsource | ⟨source, -, hrest⟩
      · cases hs : site.source <;> rw [hs] at hsource <;> cases hsource
      · have hbounds : FailsWith (fun f => f ≠ .eval e)
            (refs.forM fun ref => (shapes.checkBounds ref (some source) : Except Failure Unit)) :=
          FailsWith.forM fun ref _ => FailsWith.lift_compile fun _ _ => nofun
        rcases bind_eq_error.mp hrest with hrest | ⟨_, -, hrest⟩
        · exact absurd rfl (hbounds _ hrest)
        · cases hrest

/-! ## What the passes ask for -/

/-- The context of the passes behind folding. -/
abbrev passContext (m : Model) (functions : FunctionTable α) (K : Folding.Constants α) :
    ShapeTable → Context α :=
  Unrolled.context functions K (Stmt.definedNames m.statements)

/-- A task that an unrolling asks for behind folding: the context and the instance in which it is
run, and the use of its integers. -/
inductive AsksFor (m : Model) (data : Bindings) (functions : FunctionTable α) :
    Context α → Site → IndexUse → Task → Prop
  /-- The first pass comes to the instance. -/
  | registering {K : Folding.Constants α} {p : Progress} {site : Site} {t x : Task}
      (hfolding : Folding.constants functions m.statements data = .ok K)
      (hcomes : (Unrolled.registering (passContext m functions K)).Comes
        ⟨ShapeTable.ofData data.shapes, []⟩ (Folding.start m.statements) p site)
      (htask : ComesTo ((passContext m functions K p.shapes).run site) site.indexTasks t)
      (hmeets : (passContext m functions K p.shapes).Meets site t x) :
      AsksFor m data functions (passContext m functions K p.shapes) site site.indexUse x
  /-- The second pass comes to the instance. -/
  | defining {K : Folding.Constants α} {p : Progress} {site : Site} {id : Identity} {t x : Task}
      (hfolding : Folding.constants functions m.statements data = .ok K)
      (hwalk : Stmt.walkAll (Unrolled.registering (passContext m functions K)) []
        ⟨ShapeTable.ofData data.shapes, []⟩ m.statements = .ok p)
      (hcomes : ComesTo (fun t => define (passContext m functions K) p.shapes t.1 t.2)
        p.targets.reverse (site, id))
      (htask : ComesTo ((passContext m functions K p.shapes).run site) site.meaningTasks t)
      (hmeets : (passContext m functions K p.shapes).Meets site t x) :
      AsksFor m data functions (passContext m functions K p.shapes) site .index x

variable {m : Model} {bindings : Table String Datum} {data : Bindings} {functions : FunctionTable α}
  {ctx : Context α} {use : IndexUse} {x : Task}

/-- The instances that a walk through a valid model comes to are valid. -/
theorem valid_of_comes (hm : m.check = .ok ()) {σ : Type} {w : Walker α σ} {state state' : σ}
    (h : w.Comes state (Folding.start m.statements) state' site) : site.statement.Valid := by
  refine h.forall_sites (fun site => site.statement.Valid) (fun site hsite => ?_)
    fun site lo hi hsite t ht => Stmt.valid_of_inner hsite ht
  obtain ⟨s, hs, rfl⟩ := List.mem_map.mp hsite
  exact Stmt.valid_of_checkAll hm s hs

/-- Where the passes ask for a task: with the constants that were found, and with shapes that
contain those of the data. -/
theorem AsksFor.exists_context (h : AsksFor m data functions ctx site use x)
    (hm : m.check = .ok ()) :
    ∃ K t ids, Folding.constants functions m.statements data = .ok K ∧
      t.Describes data.shapes ids ∧ ctx = passContext m functions K t ∧ site.statement.Valid := by
  cases h with
  | registering hfolding hcomes =>
    have hsound := hcomes.invariant (Progress.Sound data.shapes) (sound_start data.shapes)
      fun _ _ _ _ hp hstep => sound_of_step hstep hp
    exact ⟨_, _, _, hfolding, hsound, rfl, valid_of_comes hm hcomes⟩
  | defining hfolding hwalk hcomes =>
    have hsound := sound_of_runs (Stmt.walkAll_eq_ok_iff.mp hwalk) (sound_start data.shapes)
    have hvalid := valid_of_registering hm hwalk _ (List.mem_reverse.mp hcomes.mem)
    exact ⟨_, _, _, hfolding, hsound, rfl, hvalid⟩

/-- A task that is asked for and fails ends the unrolling, with what is reported for it. -/
theorem AsksFor.make_eq_error (h : AsksFor m data functions ctx site use x)
    (hm : m.check = .ok ()) (hdata : Bindings.flatten bindings = .ok data) {f : Failure}
    (hx : ctx.run site x = .error f) :
    make m bindings functions = .error (ctx.report site use f) := by
  rw [make_eq, hdata, ok_bind]
  cases h with
  | registering hfolding hcomes htask hmeets =>
    have hvalid := (Site.valid_tasks (valid_of_comes hm hcomes)).1
    have htask' := hmeets.run_eq_error (hvalid _ htask.mem) hx
    have hstep := registering_step_eq_error
      (Context.runAll_eq_error_iff.mpr ⟨_, htask, htask'⟩)
    have hwalk := Stmt.walkAll_eq_error_iff.mpr ⟨_, _, hcomes, hstep⟩
    rw [hfolding, ok_bind, makeWith]
    exact bind_eq_error.mpr (Or.inl hwalk)
  | @defining K p site id t x hfolding hwalk hcomes htask hmeets =>
    have hvalid := (Site.valid_tasks
      (valid_of_registering hm hwalk _ (List.mem_reverse.mp hcomes.mem))).2
    have htask' := hmeets.run_eq_error (hvalid _ htask.mem) hx
    have hdefine := define_eq_error id
      (Context.runAll_eq_error_iff.mpr ⟨_, htask, htask'⟩)
    have hdefinitions := mapM_eq_error_iff.mpr ⟨_, hcomes, hdefine⟩
    rw [hfolding, ok_bind, makeWith]
    refine bind_eq_error.mpr (Or.inr ⟨_, hwalk, ?_⟩)
    exact bind_eq_error.mpr (Or.inl hdefinitions)

/-- An error of an evaluation behind folding comes from a task that is asked for, and that fails
although its subtasks succeed. -/
theorem exists_asksFor {K : Folding.Constants α} (hm : m.check = .ok ())
    (hfolding : Folding.constants functions m.statements data = .ok K) {e : EvalError}
    (h : makeWith m data K functions = .error (.eval e)) :
    ¬ e.IsStuck ∧ ∃ ctx site use x, AsksFor m data functions ctx site use x ∧
      site.statement.Valid ∧ x.Valid site.statement ∧
      ctx.run site x = .error (.eval e) ∧ ctx.runAll site x.subtasks = .ok () := by
  rcases bind_eq_error.mp h with hwalk | ⟨p, hwalk, hrest⟩
  · obtain ⟨p, site, hcomes, hstep⟩ := Stmt.walkAll_eq_error_iff.mp hwalk
    obtain ⟨hindices, hknown⟩ := runAll_of_registering_step hstep
    obtain ⟨t, htask, ht⟩ := Context.runAll_eq_error_iff.mp hindices
    have hvalid := valid_of_comes hm hcomes
    obtain ⟨x, hmeets, hx, hrun, hsubtasks⟩ :=
      Context.exists_meets ((Site.valid_tasks hvalid).1 t htask.mem) ht
    exact ⟨hknown, _, site, _, x, .registering hfolding hcomes htask hmeets, hvalid, hx, hrun,
      hsubtasks⟩
  · rcases bind_eq_error.mp hrest with hdefinitions | ⟨definitions, -, hrest⟩
    · obtain ⟨⟨site, id⟩, hcomes, hdefine⟩ := mapM_eq_error_iff.mp hdefinitions
      obtain ⟨hmeaning, hknown⟩ := runAll_of_define hdefine
      obtain ⟨t, htask, ht⟩ := Context.runAll_eq_error_iff.mp hmeaning
      have hvalid := valid_of_registering hm hwalk _ (List.mem_reverse.mp hcomes.mem)
      obtain ⟨x, hmeets, hx, hrun, hsubtasks⟩ :=
        Context.exists_meets ((Site.valid_tasks hvalid).2 t htask.mem) ht
      exact ⟨hknown, _, site, _, x, .defining hfolding hwalk hcomes htask hmeets, hvalid, hx, hrun,
        hsubtasks⟩
    · cases hrest

end Unrolled

end BayesGraph
