import BayesGraph.Proofs.FailingWalks
import BayesGraph.Proofs.EvaluableOperations
import BayesGraph.Proofs.Substitution
import BayesGraph.Proofs.WrittenForms

/-!
# How the resolution of valid models can fail

The passes behind validation have branches for what validation excludes: unresolved forms in
expressions, left-hand sides that are no variables or that are loop variables, statements that are
none. A failure is admissible if it does not come from such a branch (`Failure.Admissible`). The
resolution of a valid instance has admissible failures only, and so has a walk through instances
that are proper: valid, with left-hand sides among the names that the model defines and no values of
loop variables but those of its loops. The one error that needs a word is that of an expression
without a value, because a registered function may report it too.

Behind the check of the data, the errors about a model are those of shapes and of names, and that of
an indexed loop variable (`Failure.AdmissibleUnrolling`).
-/

set_option autoImplicit false

namespace BayesGraph

open Outcome

/-- A function of the table reports an error for some arguments. -/
def FunctionTable.Reports {α : Type} (functions : FunctionTable α) (e : EvalError) : Prop :=
  ∃ name f mode arguments, functions.get? name = some f ∧ f.meaning mode arguments = .error e

namespace Cause

/-- The causes in the branches that no valid model comes to. -/
def IsInternal : Cause → Prop
  | .unresolvable _ | .invalidTarget | .assignedLoopVariable _ | .invalidStatement _ => True
  | _ => False

end Cause

/-- The error does not come from an unresolved expression; a function may still report the same
error. -/
def EvalError.Admissible {α : Type} (functions : FunctionTable α) (e : EvalError) : Prop :=
  e = .unevaluable → functions.Reports e

/-- The failure does not come from a branch that no valid model comes to. -/
def Failure.Admissible {α : Type} (functions : FunctionTable α) : Failure → Prop
  | .compile e => ¬ e.cause.IsInternal
  | .eval e => e.Admissible functions
  | .malformed _ => False
  | .dimension _ _ => True

/-- The causes with which the unrolling of a valid model fails. -/
def Cause.IsUnrolling (c : Cause) : Prop :=
  c.errorClass = .shape ∨ c.errorClass = .unresolved ∨ ∃ name, c = .indexedLoopVariable name

/-- The failure is one that the unrolling of a valid model can have. -/
def Failure.AdmissibleUnrolling {α : Type} (functions : FunctionTable α) : Failure → Prop
  | .compile e => e.cause.IsUnrolling
  | .eval e => e.Admissible functions
  | .malformed _ | .dimension _ _ => False

/-- An error that can happen while unrolling can happen while building. -/
theorem Failure.AdmissibleUnrolling.admissible {α : Type} {functions : FunctionTable α}
    {f : Failure} (h : f.AdmissibleUnrolling functions) : f.Admissible functions := by
  cases f with
  | compile e =>
    rcases h with h | h | ⟨name, h⟩
    · intro hinternal
      unfold Cause.IsInternal at hinternal
      split at hinternal <;> simp_all [Cause.errorClass]
    · intro hinternal
      unfold Cause.IsInternal at hinternal
      split at hinternal <;> simp_all [Cause.errorClass]
    · rw [Failure.Admissible, h]
      exact not_false
  | eval e => exact h
  | malformed e => exact h
  | dimension _ _ => exact trivial

/-- What is evaluable fails only admissibly. -/
theorem Evaluable.admissible {α ν : Type} {functions : FunctionTable α} {x : Except EvalError ν}
    (h : Evaluable x) : FailsWith (EvalError.Admissible functions) x :=
  h.mono fun _ he hbad => absurd hbad he

/-! ## Values of resolved expressions -/

namespace Expr

variable {α : Type} [Scalar α] {env : Environment α}

/-- If expressions fail only admissibly, so do lists of them. -/
theorem admissible_evalAll {es : List Expr}
    (h : ∀ e ∈ es, FailsWith (EvalError.Admissible env.functions) (e.eval env)) :
    FailsWith (EvalError.Admissible env.functions) (evalAll env es) := by
  induction es with
  | nil => exact .ok []
  | cons e rest ih =>
    rw [evalAll]
    refine (h e List.mem_cons_self).bind fun v => ?_
    exact (ih fun e' he' => h e' (List.mem_cons_of_mem e he')).bind fun vs => .pure _

omit [Scalar α] in
/-- What a call reports is an error of the function, or says that there is none. -/
theorem admissible_call (name : Datum) (arguments : List (Value α)) :
    FailsWith (EvalError.Admissible env.functions) (env.call name arguments) := by
  unfold Environment.call
  split
  · next f hf =>
    obtain ⟨t, -, ht⟩ := Option.bind_eq_some_iff.mp hf
    exact fun e he _ => ⟨t, f, env.mode, arguments, ht, he⟩
  · refine .error fun hbad => ?_
    split at hbad <;> cases hbad

/-- A resolved expression does not fail for being unresolved. -/
theorem Resolved.admissible_eval {e : Expr} (h : e.Resolved)
    (hlookup : ∀ id, Evaluable (env.lookup id)) :
    FailsWith (EvalError.Admissible env.functions) (e.eval env) := by
  have hbinary : ∀ {a b : Expr} {f : Value α → Value α → Except EvalError (Value α)},
      FailsWith (EvalError.Admissible env.functions) (a.eval env) →
      FailsWith (EvalError.Admissible env.functions) (b.eval env) → (∀ x y, Evaluable (f x y)) →
      FailsWith (EvalError.Admissible env.functions) (do
        let x ← a.eval env
        let y ← b.eval env
        f x y) :=
    fun ha hb hf => ha.bind fun x => hb.bind fun y => (hf x y).admissible
  induction h with
  | literal _ => exact .ok _
  | ref id => exact (hlookup id).admissible
  | @refArray ids shape _ =>
    rw [eval]
    refine Evaluable.admissible (FailsWith.bind ?_ fun vs => Value.evaluable_block _ vs shape)
    refine FailsWith.mapM fun id _ => (hlookup id).bind fun v => ?_
    exact (Value.evaluable_toTensor v).bind fun t => .pure _
  | negate _ ih => exact ih.bind fun v => (Value.evaluable_negate v).admissible
  | add _ _ iha ihb => exact hbinary iha ihb Value.evaluable_add
  | sub _ _ iha ihb => exact hbinary iha ihb Value.evaluable_sub
  | mul _ _ iha ihb => exact hbinary iha ihb Value.evaluable_mul
  | div _ _ iha ihb => exact hbinary iha ihb (Value.evaluable_divide env.rules)
  | pow _ _ iha ihb => exact hbinary iha ihb (Value.evaluable_power env.rules)
  | @call func arguments _ ih =>
    rw [eval]
    exact (admissible_evalAll ih).bind fun xs => admissible_call func xs

/-- An index that is no slice is checked like any other expression. -/
theorem check_of_not_slice {s : Stmt} {e : Expr} (hslice : e.isSlice = false)
    (h : e.check s true = .ok ()) : e.check s false = .ok () := by
  cases e with
  | colon | range _ _ => cases hslice
  | _ => exact h

end Expr

/-! ## Resolution -/

/-- An error about a valid instance has its cause and nothing else. -/
theorem Site.admissible_refuse {α ν : Type} {functions : FunctionTable α} {site : Site}
    (hsite : site.statement.Valid) {cause : Cause} (hcause : cause.IsUnrolling)
    {id : Option Identity} :
    FailsWith (Failure.AdmissibleUnrolling functions) (site.refuse cause id : Except Failure ν) :=
  (FailsWith.lift_malformed (Site.succeeds_source hsite)).bind fun _ => .error hcause

namespace Context

variable {α : Type} [Scalar α] {ctx : Context α} {site : Site} {s : Stmt}

/-- The shapes of a context are found, or fail admissibly. -/
def ShapesAdmissible (ctx : Context α) : Prop :=
  ∀ name, FailsWith (Failure.AdmissibleUnrolling ctx.functions) (ctx.shapeOf name)

omit [Scalar α] in
/-- Constants are looked up without an impossible error. -/
theorem evaluable_lookup (id : Identity) : Evaluable (ctx.folding.lookup id) := by
  change Evaluable (ctx.lookup id)
  unfold lookup
  split
  · exact .ok _
  · exact .error nofun

/-- The index that resolves is evaluated, or this fails admissibly. -/
theorem admissible_evalResolvedIndex (hsite : site.statement.Valid) {written resolved : Expr}
    {inIndex : Bool} (hwritten : written.check s inIndex = .ok ()) (hresolved : resolved.Resolved) :
    FailsWith (Failure.AdmissibleUnrolling ctx.functions)
      (ctx.evalResolvedIndex site written resolved) := by
  unfold evalResolvedIndex
  split
  · exact Site.admissible_refuse hsite (Or.inr (Or.inl rfl))
  · next e _ he => exact .error (hresolved.admissible_eval evaluable_lookup e he)
  · refine (FailsWith.lift_eval (Value.evaluable_toScalar _).admissible).bind fun x => ?_
    split
    · exact .pure _
    · refine (FailsWith.lift_malformed (Expr.succeeds_print written hwritten)).bind fun text => ?_
      exact Site.admissible_refuse hsite (Or.inl rfl)

omit [Scalar α] in
/-- A whole dimension is selected, or this fails admissibly. -/
theorem admissible_wholeDimension (hsite : site.statement.Valid) (hshapes : ctx.ShapesAdmissible)
    (name : String) (d rank : Nat) :
    FailsWith (Failure.AdmissibleUnrolling ctx.functions)
      (ctx.wholeDimension site name d rank) := by
  unfold wholeDimension
  refine (hshapes name).bind fun shape => ?_
  split
  · exact Site.admissible_refuse hsite (Or.inl rfl)
  · exact .pure _

omit [Scalar α] in
/-- The positions of a slice are found, or this fails admissibly. -/
theorem admissible_slicePositions (lo hi : Int) :
    FailsWith (Failure.AdmissibleUnrolling ctx.functions) (slicePositions lo hi) := by
  unfold slicePositions
  split
  · exact .error nofun
  · exact .ok _

mutual

/-- The resolution of a checked expression fails admissibly. -/
theorem admissible_resolve (hsite : site.statement.Valid) (hshapes : ctx.ShapesAdmissible)
    (e : Expr) (h : e.check s false = .ok ()) :
    FailsWith (Failure.AdmissibleUnrolling ctx.functions) (resolve ctx site e) := by
  match e with
  | .literal val => exact .pure _
  | .var name =>
    rw [resolve]
    split
    · exact .pure _
    · exact .pure _
  | .index name indices =>
    rw [resolve]
    split
    · exact Site.admissible_refuse hsite (Or.inr (Or.inr ⟨_, rfl⟩))
    · exact (admissible_positionsOf hsite hshapes name.shown indices.length 0 indices h).bind
        fun positions => .pure _
  | .negate val =>
    rw [resolve]
    exact (admissible_resolve hsite hshapes val h).bind fun val' => .pure _
  | .add a b | .sub a b | .mul a b | .div a b | .pow a b =>
    obtain ⟨⟨⟩, ha, hb⟩ := bind_eq_ok.mp h
    rw [resolve]
    refine (admissible_resolve hsite hshapes a ha).bind fun left => ?_
    exact (admissible_resolve hsite hshapes b hb).bind fun right => .pure _
  | .call func arguments =>
    rw [resolve]
    cases func with
    | text t =>
      rw [Expr.check] at h
      split at h
      · cases h
      · exact (admissible_resolveAll hsite hshapes arguments h).bind fun arguments' => .pure _
    | int _ | real _ | truth _ | nothing | list _ | record _ => cases h
  | .colon | .range _ _ | .ref _ | .refArray _ _ | .raw _ | .rawList _ => cases h

/-- A list of checked expressions resolves, or this fails admissibly. -/
theorem admissible_resolveAll (hsite : site.statement.Valid) (hshapes : ctx.ShapesAdmissible)
    (es : List Expr) (h : Expr.checkAll s false es = .ok ()) :
    FailsWith (Failure.AdmissibleUnrolling ctx.functions) (resolveAll ctx site es) := by
  match es with
  | [] => exact .pure []
  | e :: rest =>
    obtain ⟨⟨⟩, he, hrest⟩ := bind_eq_ok.mp h
    rw [resolveAll]
    refine (admissible_resolve hsite hshapes e he).bind fun first => ?_
    exact (admissible_resolveAll hsite hshapes rest hrest).bind fun others => .pure _

/-- So do the positions of checked indices. -/
theorem admissible_positionsOf (hsite : site.statement.Valid) (hshapes : ctx.ShapesAdmissible)
    (name : String) (rank d : Nat) (es : List Expr) (h : Expr.checkAll s true es = .ok ()) :
    FailsWith (Failure.AdmissibleUnrolling ctx.functions)
      (positionsOf ctx site name rank d es) := by
  match es with
  | [] => exact .pure []
  | e :: rest =>
    obtain ⟨⟨⟩, he, hrest⟩ := bind_eq_ok.mp h
    have hothers := admissible_positionsOf hsite hshapes name rank (d + 1) rest hrest
    by_cases hslice : e.isSlice = true
    · match e with
      | .colon =>
        rw [positionsOf]
        refine (admissible_wholeDimension hsite hshapes name d rank).bind fun ps => ?_
        exact hothers.bind fun others => .pure _
      | .range a b =>
        rw [Expr.check, if_pos rfl] at he
        obtain ⟨⟨⟩, ha, hb⟩ := bind_eq_ok.mp he
        rw [positionsOf]
        refine (admissible_resolve hsite hshapes a ha).bind_of_ok fun a' ha' => ?_
        have ha' := resolved_of_resolve a ha ha'
        refine (admissible_evalResolvedIndex hsite ha ha').bind fun lo => ?_
        refine (admissible_resolve hsite hshapes b hb).bind_of_ok fun b' hb' => ?_
        have hb' := resolved_of_resolve b hb hb'
        refine (admissible_evalResolvedIndex hsite hb hb').bind fun hi => ?_
        refine (admissible_slicePositions lo hi).bind fun ps => ?_
        exact hothers.bind fun others => .pure _
      | .literal _ | .var _ | .index _ _ | .negate _ | .add _ _ | .sub _ _ | .mul _ _ | .div _ _
      | .pow _ _ | .call _ _ | .ref _ | .refArray _ _ | .raw _ | .rawList _ => cases hslice
    · have hslice := Bool.eq_false_iff.mpr hslice
      have he := Expr.check_of_not_slice hslice he
      rw [positionsOf_cons hslice]
      refine (admissible_resolve hsite hshapes e he).bind_of_ok fun e' he' => ?_
      have he' := resolved_of_resolve e he he'
      refine (admissible_evalResolvedIndex hsite he he').bind fun i => ?_
      exact hothers.bind fun others => .pure _

end

/-- So does the value of a checked index or bound. -/
theorem admissible_evalIndex (hsite : site.statement.Valid) (hshapes : ctx.ShapesAdmissible)
    {e : Expr} (h : e.check s false = .ok ()) :
    FailsWith (Failure.AdmissibleUnrolling ctx.functions) (ctx.evalIndex site e) := by
  unfold evalIndex
  refine (admissible_resolve hsite hshapes e h).bind_of_ok fun e' he' => ?_
  exact admissible_evalResolvedIndex hsite h (resolved_of_resolve e h he')

/-- So does the resolution of a checked left-hand side that is no loop variable. -/
theorem admissible_resolveTarget (hsite : site.statement.Valid) (hshapes : ctx.ShapesAdmissible)
    {lhs : Expr} (h : lhs.checkTarget s = .ok ())
    (hfree : ∀ name, lhs = .var name → site.env.value? name = none) :
    FailsWith (Failure.AdmissibleUnrolling ctx.functions) (ctx.resolveTarget site lhs) := by
  rcases Expr.target_cases h with ⟨name, rfl⟩ | ⟨name, indices, rfl, hindices⟩
  · have hnone := hfree name rfl
    unfold resolveTarget
    dsimp only
    rw [hnone]
    exact .pure _
  · refine FailsWith.bind (FailsWith.mapM fun e he => ?_) fun is => .pure _
    exact admissible_evalIndex hsite hshapes (Expr.check_of_mem hindices he)

/-- So does the resolution of a checked distribution. -/
theorem admissible_resolveDist (hsite : site.statement.Valid) (hshapes : ctx.ShapesAdmissible)
    {d : Dist} (h : Expr.checkAll s false d.parts = .ok ()) :
    FailsWith (Failure.AdmissibleUnrolling ctx.functions) (ctx.resolveDist site d) := by
  have hmem : ∀ e ∈ d.parts,
      FailsWith (Failure.AdmissibleUnrolling ctx.functions) (ctx.resolve site e) :=
    fun e he => admissible_resolve hsite hshapes e (Expr.check_of_mem h he)
  unfold Dist.parts Dist.bounds at hmem
  unfold Dist.parts at h
  unfold resolveDist
  refine (FailsWith.optionMapM fun e he => hmem e ?_).bind fun lower => ?_
  · exact List.mem_append_right _ (List.mem_append_left _ (Option.mem_toList.mpr he))
  refine (FailsWith.optionMapM fun e he => hmem e ?_).bind fun upper => ?_
  · exact List.mem_append_right _ (List.mem_append_right _ (Option.mem_toList.mpr he))
  exact (admissible_resolveAll hsite hshapes d.params (Unrolled.checkAll_append.mp h).1).bind
    fun params => .pure _

omit [Scalar α] in
/-- The explanation of a value that is not known is an error of its own. -/
theorem admissible_explain {ν : Type} (hsite : site.statement.Valid) (use : IndexUse)
    {x : Except Failure ν} (h : FailsWith (Failure.AdmissibleUnrolling ctx.functions) x) :
    FailsWith (Failure.AdmissibleUnrolling ctx.functions) (ctx.explain site use x) := by
  unfold explain
  split
  · split
    · exact Site.admissible_refuse hsite (Or.inl rfl)
    · exact Site.admissible_refuse hsite (Or.inr (Or.inl rfl))
  · exact h

end Context

/-! ## Instances inside loops -/

namespace Stmt

/-- The loop variables in a member are those in the list. -/
theorem loopNames_subset_ofAll {ss : List Stmt} {s : Stmt} (hs : s ∈ ss) :
    s.loopNames ⊆ loopNamesOfAll ss := by
  induction ss with
  | nil => cases hs
  | cons t ss ih =>
    rw [loopNamesOfAll]
    rcases List.mem_cons.mp hs with rfl | hs
    · exact List.subset_append_left _ _
    · exact fun name hname => List.mem_append_right _ (ih hs hname)

/-- The targets in a member are those in the list. -/
theorem targets_subset_ofAll {ss : List Stmt} {s : Stmt} (hs : s ∈ ss) :
    s.targets ⊆ targetsOfAll ss := by
  induction ss with
  | nil => cases hs
  | cons t ss ih =>
    rw [targetsOfAll]
    rcases List.mem_cons.mp hs with rfl | hs
    · exact List.subset_append_left _ _
    · exact fun name hname => List.mem_append_right _ (ih hs hname)

end Stmt

/-- One more loop variable is bound, beside those that were. -/
theorem LoopValues.name_of_mem_bind {env : LoopValues} {name : String} {i : Int} {e : String × Int}
    (he : e ∈ env.bind name i) : e.1 = name ∨ ∃ e' ∈ env, e'.1 = e.1 := by
  unfold LoopValues.bind at he
  split at he
  · obtain ⟨e', he', rfl⟩ := List.mem_map.mp he
    split
    · exact Or.inl rfl
    · exact Or.inr ⟨e', he', rfl⟩
  · rcases List.mem_append.mp he with he | he
    · exact Or.inr ⟨e, he, rfl⟩
    · rw [List.mem_singleton] at he
      exact Or.inl (by rw [he])

namespace Site.Within

variable {ss : List Stmt} {site : Site}

/-- The loops inside are loops of the statements. -/
theorem loopNames_subset (h : site.Within ss) :
    site.statement.loopNames ⊆ Stmt.loopNamesOfAll ss := by
  induction h with
  | statement hs => exact Stmt.loopNames_subset_ofAll hs
  | inner _ ht ih =>
    obtain ⟨comment, var, sequence, body, s, i, hstatement, hs, rfl⟩ := exists_of_mem_inner ht
    rw [hstatement] at ih
    intro name hname
    exact ih (List.mem_cons_of_mem var (Stmt.loopNames_subset_ofAll hs hname))

/-- The left-hand sides inside are left-hand sides of the statements. -/
theorem targets_subset (h : site.Within ss) : site.statement.targets ⊆ Stmt.targetsOfAll ss := by
  induction h with
  | statement hs => exact Stmt.targets_subset_ofAll hs
  | inner _ ht ih =>
    obtain ⟨comment, var, sequence, body, s, i, hstatement, hs, rfl⟩ := exists_of_mem_inner ht
    rw [hstatement] at ih
    exact List.Subset.trans (Stmt.targets_subset_ofAll hs) ih

/-- Around an instance, loop variables of the statements have values, and no others. -/
theorem name_of_mem_env (h : site.Within ss) :
    ∀ e ∈ site.env, ∃ name ∈ Stmt.loopNamesOfAll ss, name.shown = e.1 := by
  induction h with
  | statement hs => simp
  | inner hsite ht ih =>
    obtain ⟨comment, var, sequence, body, s, i, hstatement, hs, rfl⟩ := exists_of_mem_inner ht
    intro e he
    rcases LoopValues.name_of_mem_bind he with hname | ⟨e', he', hname⟩
    · have hvar := hsite.loopNames_subset
      rw [hstatement] at hvar
      exact ⟨var, hvar List.mem_cons_self, hname.symm⟩
    · rw [← hname]
      exact ih e' he'

end Site.Within

/-! ## Proper instances -/

/-- A valid instance inside loops of a model: its left-hand sides are among the names that the model
defines, and its loop variables and those around it are among the loop variables of the model. -/
structure Site.Proper (loops defined : List Datum) (site : Site) : Prop where
  valid : site.statement.Valid
  inward : ∀ name ∈ site.statement.loopNames, name ∈ loops
  targets : ∀ name ∈ site.statement.targets, name ∈ defined
  env : ∀ e ∈ site.env, ∃ name : Datum, name ∈ loops ∧ name.shown = e.1

/-- The instances of a valid model are proper. -/
theorem Site.Within.proper {ss : List Stmt} {site : Site} (h : site.Within ss)
    (hss : Stmt.checkAll [] ss = .ok ()) :
    site.Proper (Stmt.loopNamesOfAll ss) (Stmt.targetsOfAll ss) where
  valid := h.valid hss
  inward _ hname := h.loopNames_subset hname
  targets _ hname := h.targets_subset hname
  env := h.name_of_mem_env

namespace Site.Proper

variable {loops defined : List Datum} {site : Site}

/-- If loop variables are names that the model does not define, a left-hand side of a proper
instance is no loop variable. -/
theorem free (h : site.Proper loops defined)
    (hloops : ∀ name ∈ loops, (∃ t, name = .text t) ∧ name ∉ defined) {name : Datum}
    (hname : name ∈ site.statement.targets) : site.env.value? name = none := by
  unfold LoopValues.value?
  rw [Option.map_eq_none_iff, List.find?_eq_none]
  intro e he heq
  obtain ⟨var, hvar, hshown⟩ := h.env e he
  obtain ⟨⟨t, rfl⟩, hdefined⟩ := hloops var hvar
  have hname' : name = .text t := (of_decide_eq_true heq).trans (congrArg Datum.text hshown.symm)
  exact hdefined (hname' ▸ h.targets name hname)

end Site.Proper

/-! ## Walks -/

/-- What holds of the instances at which a walk starts, and passes on to the bodies of loops, holds
wherever the walk comes to. -/
theorem Walker.Comes.forall_sites {α σ : Type} [Scalar α] {w : Walker α σ} {state state' : σ}
    {sites : List Site} {site : Site} (h : w.Comes state sites state' site) (P : Site → Prop)
    (hsites : ∀ site ∈ sites, P site)
    (hinner : ∀ site lo hi, P site → ∀ t ∈ site.inner lo hi, P t) : P site := by
  induction h with
  | here state site rest => exact hsites site List.mem_cons_self
  | @later state mid state' site site' inner rest hstep _ ih =>
    refine ih fun t ht => ?_
    rcases List.mem_append.mp ht with ht | ht
    · rcases step_eq_ok_iff.mp hstep with ⟨-, -, rfl⟩ | ⟨lo, hi, -, -, rfl⟩ |
        ⟨_, _, -, -, -, -, rfl⟩
      · cases ht
      · exact hinner site lo hi (hsites site List.mem_cons_self) t ht
      · cases ht
    · exact hsites t (List.mem_cons_of_mem site ht)

section Walks

variable {α σ : Type} [Scalar α] {w : Walker α σ} {functions : FunctionTable α}

/-- The bounds of a valid loop fail admissibly. -/
theorem Walker.admissible_bounds {state : σ} {site : Site} (hsite : site.statement.Valid)
    (hfunctions : (w.context state).functions = functions)
    (hshapes : (w.context state).ShapesAdmissible) {s : Stmt} {start stop : Expr}
    (hstart : start.check s false = .ok ()) (hstop : stop.check s false = .ok ()) :
    FailsWith (Failure.AdmissibleUnrolling functions) (w.bounds state site start stop) := by
  subst hfunctions
  have hboth : FailsWith (Failure.AdmissibleUnrolling (w.context state).functions) (do
      let lo ← (w.context state).evalIndex site start
      let hi ← (w.context state).evalIndex site stop
      return (lo, hi)) := by
    refine (Context.admissible_evalIndex hsite hshapes hstart).bind fun lo => ?_
    exact (Context.admissible_evalIndex hsite hshapes hstop).bind fun hi => .pure _
  unfold Walker.bounds
  dsimp only
  split
  · exact (Context.admissible_explain hsite _ hboth).map
  · split
    · exact .ok _
    · next e _ he => exact .error (hboth e he)
    · exact .ok _

/-- A walk through the statements of a valid model fails admissibly if the visits of all proper
instances do. -/
theorem Stmt.admissible_walkAll {ss : List Stmt} (hss : checkAll [] ss = .ok ())
    (hfunctions : ∀ state, (w.context state).functions = functions)
    (hshapes : ∀ state, (w.context state).ShapesAdmissible)
    (hvisit : ∀ state (site : Site), site.Proper (loopNamesOfAll ss) (targetsOfAll ss) →
      site.range? = none → FailsWith (Failure.AdmissibleUnrolling functions) (w.visit state site))
    (state : σ) : FailsWith (Failure.AdmissibleUnrolling functions) (walkAll w [] state ss) := by
  intro e he
  obtain ⟨state', site, hcomes, herror⟩ := walkAll_eq_error_iff.mp he
  have hwithin : site.Within ss := by
    refine hcomes.forall_sites _ (fun site hsite => ?_) fun site lo hi hsite t ht => hsite.inner ht
    obtain ⟨s, hs, rfl⟩ := List.mem_map.mp hsite
    exact .statement hs
  have hproper := hwithin.proper hss
  unfold Walker.step at herror
  cases hrange : site.range? with
  | none =>
    rw [hrange] at herror
    exact (hvisit state' site hproper hrange).bind (fun mid => .pure (mid, [])) e herror
  | some range =>
    obtain ⟨start, stop⟩ := range
    rw [hrange] at herror
    refine FailsWith.bind (P := Failure.AdmissibleUnrolling functions) ?_ (fun bounds => ?_) e
      herror
    · obtain ⟨loops, hcheck⟩ := hproper.valid
      unfold Site.range? at hrange
      rcases check_cases hcheck with ⟨_, _, _, hs, -⟩ | ⟨_, _, _, hs, -⟩ |
        ⟨_, _, start', stop', _, hs, hstart, hstop, -⟩
      · simp [hs] at hrange
      · simp [hs] at hrange
      · rw [hs] at hrange
        cases hrange
        exact Walker.admissible_bounds hproper.valid (hfunctions state') (hshapes state') hstart
          hstop
    · split
      · exact .pure _
      · exact .pure _

end Walks

end BayesGraph
