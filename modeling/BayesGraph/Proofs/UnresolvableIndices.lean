import BayesGraph.Dual
import BayesGraph.Registry
import BayesGraph.Proofs.FailingFolding

/-!
# Indices without an integer value

An index or a loop bound that has no integer value ends the unrolling. If the value is not known, or
is no integer, the error is one of shapes or of names. But an evaluation can also raise an error of
its own: the value is an array, a number is too large, an operation refuses its operands. Such an
error passes through unchanged, from every place where unrolling evaluates something
(`Unrolled.Raises`), and it is the only way in which the unrolling of a valid model can fail other
than by an error about the model (`Unrolled.make_of_index`).
-/

set_option autoImplicit false

namespace BayesGraph

open Outcome

section Tasks

variable {α : Type} [Scalar α] {ctx : Context α} {site : Site} {s : Stmt} {x : Task} {e : EvalError}

/-- An index or a slice raises an error, although it is resolved. -/
inductive Task.Raises (ctx : Context α) (site : Site) : Task → EvalError → Prop
  /-- The evaluation of an index raises it. -/
  | evaluation {i r : Expr} {e : EvalError} (hresolve : ctx.resolve site i = .ok r)
      (heval : r.eval ctx.folding = .error e) (hcalls : ∀ name, e ≠ .unknownFunction name) :
      Raises ctx site (.index i) e
  /-- The value of an index is not one number, or it is too large. -/
  | conversion {i r : Expr} {v : Value α} {e : EvalError} (hresolve : ctx.resolve site i = .ok r)
      (heval : r.eval ctx.folding = .ok v) (hscalar : v.toScalar = .error e) :
      Raises ctx site (.index i) e
  /-- A slice has more positions than a word can count. -/
  | length {lo hi : Expr} {a b : Int} (hlo : ctx.evalIndex site lo = .ok a)
      (hhi : ctx.evalIndex site hi = .ok b) (hlong : Word.signedEnd ≤ b + 1 - a) :
      Raises ctx site (.slice lo hi) .overflow

/-- The task fails with the error that is raised. -/
theorem Task.Raises.run_eq_error (h : x.Raises ctx site e) : ctx.run site x = .error (.eval e) := by
  cases h with
  | evaluation hresolve heval hcalls =>
    rw [Context.run, discard_eq_error, Context.evalIndex, hresolve, ok_bind]
    unfold Context.evalResolvedIndex
    rw [heval]
    cases e with
    | unknownFunction name => exact absurd rfl (hcalls name)
    | _ => rfl
  | conversion hresolve heval hscalar =>
    rw [Context.run, discard_eq_error, Context.evalIndex, hresolve, ok_bind]
    unfold Context.evalResolvedIndex
    rw [heval]
    dsimp only
    rw [hscalar]
    rfl
  | length hlo hhi hlong =>
    rw [Context.run, hlo, hhi, ok_bind, ok_bind, slicePositions, if_pos hlong]
    rfl

/-- Shapes that are not known are no error of an evaluation, or their arrays are not known. -/
def Context.ShapesKnown (ctx : Context α) : Prop :=
  ∀ name e, ctx.shapeOf name = .error (.eval e) → e.IsStuck

/-- If a task fails with an error of an evaluation although its subtasks succeed, it raises the
error itself, unless a value is not known. -/
theorem Task.raises_of_run (hx : x.Valid s) (hshapes : ctx.ShapesKnown)
    (hsubtasks : ctx.runAll site x.subtasks = .ok ()) (h : ctx.run site x = .error (.eval e))
    (hknown : ¬ e.IsStuck) : x.Raises ctx site e := by
  cases x with
  | expr e' =>
    rw [Context.run_expr hx, hsubtasks] at h
    cases h
  | index i =>
    rw [Context.run, discard_eq_error] at h
    rcases bind_eq_error.mp h with hresolve | ⟨r, hresolve, heval⟩
    · have hexpr : ctx.runAll site [.expr i] = .error (.eval e) := by
        rw [Context.runAll_cons, Context.run, hresolve]
        rfl
      cases hsubtasks.symm.trans hexpr
    · unfold Context.evalResolvedIndex at heval
      split at heval
      · exact absurd heval Context.refuse_ne_eval
      · next e' hcalls he' =>
        cases heval
        exact .evaluation hresolve he' hcalls
      · next v hv =>
        rcases bind_eq_error.mp heval with hscalar | ⟨a, -, hinteger⟩
        · refine .conversion hresolve hv ?_
          cases hs : v.toScalar with
          | ok a => rw [hs] at hscalar; cases hscalar
          | error e' => rw [hs] at hscalar; cases hscalar; rfl
        -- a number that is no integer is refused with its text
        · split at hinteger
          · cases hinteger
          · rcases bind_eq_error.mp hinteger with htext | ⟨text, -, hrefuse⟩
            · cases ht : i.print <;> rw [ht] at htext <;> cases htext
            · exact absurd hrefuse Context.refuse_ne_eval
  | slice lo hi =>
    rw [Context.run] at h
    rw [Task.subtasks, Context.runAll_bounds] at hsubtasks
    cases hlo : ctx.evalIndex site lo with
    | error f => simp [Context.evalBounds, hlo] at hsubtasks
    | ok a =>
      cases hhi : ctx.evalIndex site hi with
      | error f => simp [Context.evalBounds, hlo, hhi] at hsubtasks
      | ok b =>
        rw [hlo, hhi, ok_bind, ok_bind, discard_eq_error] at h
        unfold slicePositions at h
        split at h
        · next hlong =>
          cases h
          exact .length hlo hhi hlong
        · cases h
  | extent name d rank =>
    rw [Context.run, discard_eq_error] at h
    rcases bind_eq_error.mp h with hshape | ⟨shape, -, hrest⟩
    · exact absurd (hshapes name e hshape) hknown
    · split at hrest
      · exact absurd hrest Context.refuse_ne_eval
      · cases hrest
  | array name =>
    rw [Context.run] at h
    split at h
    · exact absurd h Context.refuse_ne_eval
    · cases h

/-- The error of an evaluation with which a list of tasks fails is raised by a task that one of them
comes to. -/
theorem Context.exists_raises {ts : List Task} (hvalid : ∀ t ∈ ts, t.Valid s)
    (hshapes : ctx.ShapesKnown) (hknown : ¬ e.IsStuck)
    (h : ctx.runAll site ts = .error (.eval e)) :
    ∃ t x, ComesTo (ctx.run site) ts t ∧ ctx.Meets site t x ∧ x.Raises ctx site e := by
  obtain ⟨t, htask, ht⟩ := Context.runAll_eq_error_iff.mp h
  obtain ⟨x, hmeets, hx, hrun, hsubtasks⟩ := Context.exists_meets (hvalid t htask.mem) ht
  exact ⟨t, x, htask, hmeets, Task.raises_of_run hx hshapes hsubtasks hrun hknown⟩

end Tasks

/-! ## Folding -/

namespace Folding

variable {α : Type} [Scalar α] {functions : FunctionTable α} {shapes : Table String (List Nat)}
  {K : Constants α} {site : Site} {e : EvalError}

/-- An instance that folding comes to raises an error: a task that is asked for does, or the value
of a right-hand side that is resolved. -/
inductive RaisesIn (ctx : Context α) (site : Site) (e : EvalError) : Prop
  | task {x : Task} (hasks : AsksFor ctx site x) (hraises : x.Raises ctx site e)
      (hknown : ¬ Tolerates site (.eval e))
  | value {comment : List String} {lhs rhs r : Expr} {id : Identity}
      (hs : site.statement = .assign comment lhs rhs) (hid : ctx.resolveTarget site lhs = .ok id)
      (hnew : ctx.constants.contains id = false) (hresolve : ctx.resolve site rhs = .ok r)
      (hraises : supply ctx site rhs id = .error (.eval e)) (hknown : e.isUnavailable = false)

omit [Scalar α] in
/-- In a round of folding, the shapes that are not known are those of arrays that are not known. -/
theorem shapesKnown_context : (context functions shapes K).ShapesKnown := by
  intro name e h
  unfold context at h
  dsimp only at h
  split at h
  · cases h
  · cases h
    exact ⟨_, rfl⟩

/-- The step of folding at a valid instance fails with an error of an evaluation exactly if the
instance raises it. -/
theorem step_eq_eval_iff (hsite : site.statement.Valid) :
    (walker functions shapes).step K site = .error (.eval e) ↔
      RaisesIn (context functions shapes K) site e := by
  obtain ⟨hindexTasks, hmeaningTasks⟩ := Site.valid_tasks hsite
  have hstuck : ¬ Tolerates site (.eval e) → ¬ e.IsStuck := by
    rintro hknown ⟨id, rfl⟩
    exact not_isStuck_of_not_tolerates hknown ⟨id, rfl⟩
  constructor
  · intro h
    obtain ⟨loops, hcheck⟩ := id hsite
    rcases Stmt.check_cases hcheck with ⟨_, _, _, hs, -⟩ | ⟨_, lhs, rhs, hs, -⟩ |
      ⟨_, _, start, stop, _, hs, -⟩
    -- folding passes over the statement of a distribution
    · unfold Walker.step Site.range? at h
      dsimp only [walker, visit] at h
      rw [hs] at h
      cases h
    · obtain ⟨hadd, hknown⟩ := (step_assign_eq_error_iff hs).mp h
      rcases addition_eq_error_iff.mp hadd with htarget | ⟨id, hid, hnew, hsupply⟩
      · have hindices := Context.runAll_of_resolveTarget htarget
        rw [← indexTasks_assign hs] at hindices
        obtain ⟨t, x, htask, hmeets, hraises⟩ :=
          Context.exists_raises hindexTasks shapesKnown_context (hstuck hknown) hindices
        exact .task (.index (Or.inr ⟨_, _, _, hs⟩) htask hmeets) hraises hknown
      · rcases bind_eq_error.mp hsupply with hresolve | ⟨r, hresolve, -⟩
        · have hrun : (context functions shapes K).runAll site [.expr rhs] =
              .error (.eval e) := by
            rw [Context.runAll_cons, Context.run, hresolve]
            rfl
          obtain ⟨t, x, htask, hmeets, hraises⟩ := Context.exists_raises
            (Site.meaningTasks_assign hs ▸ hmeaningTasks) shapesKnown_context (hstuck hknown) hrun
          cases List.mem_singleton.mp htask.mem
          exact .task (.value hs hid hnew hmeets) hraises hknown
        · refine .value hs hid hnew hresolve hsupply ?_
          exact Bool.eq_false_iff.mpr fun hunavailable => hknown
            ((tolerates_assign hs).mpr hunavailable)
    · have hrange : site.range? = some (start, stop) := by
        unfold Site.range?
        rw [hs]
      obtain ⟨hindices, hknown⟩ := (step_loop_eq_error_iff hrange).mp h
      obtain ⟨t, x, htask, hmeets, hraises⟩ :=
        Context.exists_raises hindexTasks shapesKnown_context (hstuck hknown) hindices
      exact .task (.index (Or.inl (by rw [hrange]; rfl)) htask hmeets) hraises hknown
  · intro h
    cases h with
    | task hasks hraises hknown => exact hasks.step_eq_error hsite hraises.run_eq_error hknown
    | value hs hid hnew hresolve hraises hknown =>
      refine (step_assign_eq_error_iff hs).mpr ⟨(addition_of_new hid hnew).trans hraises, ?_⟩
      rw [tolerates_assign hs]
      exact Bool.eq_false_iff.mp hknown

end Folding

/-! ## Unrolling -/

namespace Unrolled

variable {α : Type} [Scalar α] {m : Model} {data : Bindings} {functions : FunctionTable α}
  {ctx : Context α} {site : Site} {use : IndexUse} {x : Task} {e : EvalError}

/-- An unrolling comes to an evaluation that raises an error: while constants are folded, or in one
of the passes behind folding. -/
inductive Raises (m : Model) (data : Bindings) (functions : FunctionTable α) (e : EvalError) : Prop
  | folding {L : Folding.Constants α} {site : Site}
      (hcomes : Folding.ComesTo functions data.shapes m.statements (Folding.ofData data) L site)
      (hraises : Folding.RaisesIn (Folding.context functions data.shapes L) site e)
  | passes {ctx : Context α} {site : Site} {use : IndexUse} {x : Task}
      (hasks : AsksFor m data functions ctx site use x) (hraises : x.Raises ctx site e)
      (hknown : ¬ e.IsStuck)

omit [Scalar α] in
/-- A shape that the passes do not know is an error about the model. -/
theorem shapesKnown_passContext {K : Folding.Constants α} {shapes : ShapeTable} :
    (passContext m functions K shapes).ShapesKnown := by
  intro name e he
  unfold passContext context at he
  dsimp only at he
  split at he <;> cases he

/-- An unrolling of a valid model fails with an error of an evaluation exactly if it comes to an
evaluation that raises it. -/
theorem make_eq_eval_iff {bindings : Table String Datum} (hm : m.check = .ok ())
    (hdata : Bindings.flatten bindings = .ok data) :
    make m bindings functions = .error (.eval e) ↔ Raises m data functions e := by
  constructor
  · intro h
    rw [make_eq, hdata, ok_bind] at h
    rcases bind_eq_error.mp h with hfolding | ⟨K, hfolding, hpasses⟩
    · obtain ⟨L, site, hcomes, hstep⟩ := Folding.saturate_eq_error_iff.mp hfolding
      exact .folding hcomes ((Folding.step_eq_eval_iff (hcomes.valid hm)).mp hstep)
    · obtain ⟨hknown, ctx, site, use, x, hasks, -, hx, hrun, hsubtasks⟩ :=
        exists_asksFor hm hfolding hpasses
      obtain ⟨K, t, ids, -, -, rfl, -⟩ := hasks.exists_context hm
      exact .passes hasks (Task.raises_of_run hx shapesKnown_passContext hsubtasks hrun hknown)
        hknown
  · intro h
    cases h with
    | folding hcomes hraises =>
      exact make_eq_error_of_comesTo hdata hcomes
        ((Folding.step_eq_eval_iff (hcomes.valid hm)).mpr hraises)
    | passes hasks hraises hknown =>
      rw [hasks.make_eq_error hm hdata hraises.run_eq_error]
      exact congrArg Except.error (Context.report_eq_eval_iff.mpr ⟨rfl, hknown⟩)

/-- An index or a loop bound without an integer value ends the unrolling of a valid model, except
that folding passes over values that are not known. The failure is an error about shapes or names,
or about an indexed loop variable, unless an evaluation raises an error: then it is this error. -/
theorem make_of_index {bindings : Table String Datum} {r : Registry α} {names : List Datum}
    (hm : m.check = .ok ()) (hnames : Names.verdict m bindings.keys r.contains = .ok names)
    (hdata : Bindings.flatten bindings = .ok data) :
    (∀ L site i f, Folding.ComesTo r.foldingFunctions data.shapes m.statements
        (Folding.ofData data) L site →
      Folding.AsksFor (Folding.context r.foldingFunctions data.shapes L) site (.index i) →
      (Folding.context r.foldingFunctions data.shapes L).evalIndex site i = .error f →
      ¬ Folding.Tolerates site f → make m bindings r.foldingFunctions = .error f) ∧
    (∀ ctx site use i f, AsksFor m data r.foldingFunctions ctx site use (.index i) →
      ctx.evalIndex site i = .error f →
      make m bindings r.foldingFunctions = .error (ctx.report site use f)) ∧
    (∀ f, make m bindings r.foldingFunctions = .error f →
      (∃ e, f = .eval e) ∨
      ∃ err, f = .compile err ∧ (err.cause.errorClass = .shape ∨
        err.cause.errorClass = .unresolved ∨ ∃ name, err.cause = .indexedLoopVariable name)) ∧
    ∀ e, make m bindings r.foldingFunctions = .error (.eval e) ↔
      Raises m data r.foldingFunctions e := by
  refine ⟨fun L site i f hcomes hasks hindex hknown => ?_,
    fun ctx site use i f hasks hindex => ?_, fun f hf => ?_, fun e => make_eq_eval_iff hm hdata⟩
  · exact make_eq_error_of_comesTo hdata hcomes
      (hasks.step_eq_error (hcomes.valid hm) (discard_eq_error.mpr hindex) hknown)
  · exact hasks.make_eq_error hm hdata (discard_eq_error.mpr hindex)
  · have hadmissible : f.AdmissibleUnrolling r.foldingFunctions :=
      admissible_make_of_flatten hm (Names.loops_of_verdict hnames) hdata f hf
    cases f with
    | compile err => exact Or.inr ⟨err, rfl, hadmissible⟩
    | eval e => exact Or.inl ⟨e, rfl⟩
    | malformed e => exact absurd hadmissible not_false
    | dimension d n => exact absurd hadmissible not_false

/-! ### An array as an index -/

/-- The built-in families without any functions, so that no function can raise an error. -/
def plainRegistry : Registry Dual := { Registry.empty with families := Registry.builtin.families }

/-- The only instance: the whole of an array is an index of the same array. -/
def arrayIndexSite : Site where
  statement := .sample [] (.var (.text "y")) (.dist
    { name := .text "dnorm",
      params := [.index (.text "x") [.index (.text "x") [.colon]], .literal (.int 1)] })
  env := []

/-- The model of this instance. -/
def arrayIndexModel : Model := { statements := [arrayIndexSite.statement] }

/-- The array has two elements. -/
def arrayIndexData : Table String Datum := ⟨[("x", .list [.int 1, .int 2])]⟩

/-- The elements as flat data. -/
def arrayIndexBindings : Bindings :=
  ⟨⟨[(⟨"x", [1]⟩, .int 1), (⟨"x", [2]⟩, .int 2)]⟩, ⟨[("x", [2])]⟩⟩

/-- Folding leaves the data as they are. -/
theorem constants_arrayIndexModel :
    Folding.constants plainRegistry.foldingFunctions arrayIndexModel.statements
      arrayIndexBindings = .ok (Folding.ofData arrayIndexBindings) := by
  unfold Folding.constants Folding.saturate
  rfl

/-- The context in which right-hand sides are resolved. -/
def arrayIndexContext : Context Dual :=
  passContext arrayIndexModel plainRegistry.foldingFunctions (Folding.ofData arrayIndexBindings)
    ⟨⟨[("x", [2])]⟩, ⟨[("x", [2]), ("y", [])]⟩⟩

/-- The second pass asks for the index. -/
theorem asksFor_arrayIndexModel :
    AsksFor arrayIndexModel arrayIndexBindings plainRegistry.foldingFunctions arrayIndexContext
      arrayIndexSite .index (.index (.index (.text "x") [.colon])) :=
  .defining (p := ⟨⟨⟨[("x", [2])]⟩, ⟨[("x", [2]), ("y", [])]⟩⟩, [(arrayIndexSite, ⟨"y", []⟩)]⟩)
    constants_arrayIndexModel rfl ⟨[], [], rfl, List.forall_mem_nil _⟩
    ⟨[], _, rfl, List.forall_mem_nil _⟩
    (.within ⟨[_], [], rfl, List.forall_mem_singleton.mpr ⟨(), rfl⟩⟩ (.here _))

/-- The index is no number. -/
theorem evalIndex_arrayIndexModel :
    arrayIndexContext.evalIndex arrayIndexSite (.index (.text "x") [.colon]) =
      .error (.eval .wrongKind) := rfl

/-- So the unrolling fails, with the error that the conversion raises. -/
theorem make_arrayIndexModel :
    arrayIndexModel.check = .ok () ∧
    (∃ names, Names.verdict arrayIndexModel arrayIndexData.keys plainRegistry.contains =
      .ok names) ∧
    Bindings.flatten arrayIndexData = .ok arrayIndexBindings ∧
    make arrayIndexModel arrayIndexData plainRegistry.foldingFunctions =
      .error (.eval .wrongKind) ∧
    Raises arrayIndexModel arrayIndexBindings plainRegistry.foldingFunctions .wrongKind := by
  have hnames : Names.verdict arrayIndexModel arrayIndexData.keys plainRegistry.contains =
      .ok [.text "y", .text "x"] := rfl
  have hdata : Bindings.flatten arrayIndexData = .ok arrayIndexBindings := rfl
  obtain ⟨-, hpasses, -, hraises⟩ := make_of_index rfl hnames hdata
  have hmake := hpasses _ _ _ _ _ asksFor_arrayIndexModel evalIndex_arrayIndexModel
  exact ⟨rfl, ⟨_, hnames⟩, hdata, hmake, (hraises _).mp hmake⟩

/-- The error is none about the model, although no function raises an error. -/
theorem not_compile_arrayIndexModel :
    arrayIndexModel.check = .ok () ∧
    (∃ names, Names.verdict arrayIndexModel arrayIndexData.keys plainRegistry.contains =
      .ok names) ∧
    Bindings.flatten arrayIndexData = .ok arrayIndexBindings ∧
    plainRegistry.foldingFunctions.entries = [] ∧
    arrayIndexContext.evalIndex arrayIndexSite (.index (.text "x") [.colon]) =
      .error (.eval .wrongKind) ∧
    ∃ f, make arrayIndexModel arrayIndexData plainRegistry.foldingFunctions = .error f ∧
      ∀ err, f ≠ .compile err := by
  have hdata : Bindings.flatten arrayIndexData = .ok arrayIndexBindings := rfl
  have hmake := asksFor_arrayIndexModel.make_eq_error rfl hdata
    (discard_eq_error.mpr evalIndex_arrayIndexModel)
  exact ⟨rfl, ⟨_, rfl⟩, hdata, rfl, evalIndex_arrayIndexModel, _, hmake, fun _ => nofun⟩

end Unrolled

end BayesGraph
