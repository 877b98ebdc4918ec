import BayesGraph.Dual
import BayesGraph.Registry
import BayesGraph.Proofs.ArrayBounds
import BayesGraph.Proofs.Constants
import BayesGraph.Proofs.FailingFolding

/-!
# References outside of their arrays

A reference to an array of data can have the wrong number of indices, or indices outside of the
shape. Such a reference never goes unnoticed. If it is left on a right-hand side, it is checked
against the shape, and the error is one of shapes. If an index or a bound reads it, it is looked up
among the constants, where it has no value; the error then says that it is not data, or, if no
left-hand side has the name of the array, that it is not defined at all.
-/

set_option autoImplicit false

namespace BayesGraph

open Outcome

/-! ## What an evaluation reads -/

namespace Expr

variable {α : Type} [Scalar α] {env : Environment α}

/-- A list of expressions is evaluated one by one. -/
theorem evalAll_eq_mapM (es : List Expr) : evalAll env es = es.mapM (·.eval env) := by
  induction es with
  | nil => rfl
  | cons e rest ih =>
    rw [evalAll, List.mapM_cons, ih]

/-- An evaluation fails with the first operand that does. -/
theorem eval_of_operand {e a : Expr} {f : EvalError}
    (hcomes : ComesTo (·.eval env) e.operands a) (ha : a.eval env = .error f) :
    e.eval env = .error f := by
  have hoperands : e.operands.mapM (·.eval env) = .error f := mapM_eq_error_iff.mpr ⟨a, hcomes, ha⟩
  have hboth : ∀ {l r : Expr} (k : Value α → Value α → Except EvalError (Value α)),
      [l, r].mapM (·.eval env) = .error f →
        (do let x ← l.eval env; let y ← r.eval env; k x y) = .error f := by
    intro l r k h
    rw [List.mapM_cons, List.mapM_cons, List.mapM_nil] at h
    cases hl : l.eval env with
    | error f' => rw [hl] at h; cases h; rfl
    | ok x =>
      cases hr : r.eval env with
      | error f' => rw [hl, hr] at h; cases h; rfl
      | ok y => rw [hl, hr] at h; cases h
  cases e with
  | negate val =>
    rw [operands, List.mapM_cons, List.mapM_nil] at hoperands
    rw [eval]
    cases hval : val.eval env with
    | error f' => rw [hval] at hoperands; cases hoperands; rfl
    | ok x => rw [hval] at hoperands; cases hoperands
  | add l r | sub l r | mul l r | div l r | pow l r =>
    rw [eval]
    exact hboth _ hoperands
  | call func arguments =>
    rw [eval, evalAll_eq_mapM]
    exact bind_eq_error.mpr (Or.inl hoperands)
  | literal _ | var _ | colon | range _ _ | index _ _ | ref _ | refArray _ _ | raw _ | rawList _ =>
    cases hoperands

end Expr

namespace Context

variable {α : Type} [Scalar α] {ctx ctx' : Context α} {e : Expr} {id : Identity}

/-- The value of one entry of a block. -/
def entry (ctx : Context α) (id : Identity) : Except EvalError (Value α) := do
  let v ← ctx.lookup id
  return .array .folding (← v.toTensor)

/-- The evaluation of a resolved expression comes to the value of an identity. -/
inductive Reads (ctx : Context α) : Expr → Identity → Prop
  | ref (id : Identity) : Reads ctx (.ref id) id
  | block {ids : List Identity} {shape : List Nat} {id : Identity}
      (hcomes : ComesTo ctx.entry ids id) : Reads ctx (.refArray ids shape) id
  | operand {e a : Expr} {id : Identity} (hcomes : ComesTo (·.eval ctx.folding) e.operands a)
      (hrest : Reads ctx a id) : Reads ctx e id

/-- An evaluation fails with a value that it comes to and that is not known. -/
theorem Reads.eval_eq_error (h : ctx.Reads e id) {f : EvalError} (hid : ctx.lookup id = .error f) :
    e.eval ctx.folding = .error f := by
  induction h with
  | ref id => exact hid
  | @block ids shape id hcomes =>
    have hentry : ctx.entry id = .error f := by rw [entry, hid]; rfl
    have hentries : ids.mapM ctx.entry = .error f := mapM_eq_error_iff.mpr ⟨id, hcomes, hentry⟩
    rw [Expr.eval]
    exact bind_eq_error.mpr (Or.inl hentries)
  | operand hcomes _ ih => exact Expr.eval_of_operand hcomes (ih hid)

omit [Scalar α] in
/-- A value that is known stays known when more is known. -/
theorem lookup_of_below (h : ctx.Below ctx') {v : Value α} (hid : ctx.lookup id = .ok v) :
    ctx'.lookup id = .ok v := by
  unfold lookup at hid ⊢
  cases hn : ctx.constants.get? id with
  | none => rw [hn] at hid; cases hid
  | some n =>
    rw [hn] at hid
    rw [h.constants id n hn]
    exact hid

/-- With more constants, an evaluation comes at least as far. -/
theorem Reads.of_below (h : ctx.Reads e id) (hbelow : ctx.Below ctx') : ctx'.Reads e id := by
  induction h with
  | ref id => exact .ref id
  | block hcomes =>
    obtain ⟨front, back, hids, hfront⟩ := hcomes
    refine .block ⟨front, back, hids, fun id hid => ?_⟩
    obtain ⟨w, hw⟩ := hfront id hid
    obtain ⟨v, hv, hentry⟩ := bind_eq_ok.mp hw
    refine ⟨w, bind_eq_ok.mpr ⟨v, lookup_of_below hbelow hv, hentry⟩⟩
  | operand hcomes _ ih =>
    obtain ⟨front, back, hoperands, hfront⟩ := hcomes
    refine .operand ⟨front, back, hoperands, fun y hy => ?_⟩ ih
    obtain ⟨v, hv⟩ := hfront y hy
    exact ⟨v, (eval_folding_settles hbelow y).eq_ok hv⟩

/-- The evaluation of an index reads an identity. -/
def IndexReads (ctx : Context α) (site : Site) (i : Expr) (id : Identity) : Prop :=
  ∃ e, ctx.resolve site i = .ok e ∧ ctx.Reads e id

/-- An index fails if its evaluation reads a value that is not known. -/
theorem IndexReads.run_eq_error {site : Site} {i : Expr} (h : ctx.IndexReads site i id)
    (hid : ctx.constants.get? id = none) :
    ctx.run site (.index i) = .error (.eval (.notConstant id)) := by
  obtain ⟨e, hresolve, hreads⟩ := h
  have hlookup : ctx.lookup id = .error (.notConstant id) := by
    unfold lookup
    rw [hid]
  rw [run, discard_eq_error, evalIndex, hresolve, ok_bind]
  unfold evalResolvedIndex
  rw [hreads.eval_eq_error hlookup]
  rfl

end Context

/-! ## Data within their shapes -/

namespace Bindings

/-- The identity belongs to an array of data, but does not lie within its shape. -/
def Misplaces (data : Bindings) (id : Identity) : Prop :=
  ∃ shape, data.shapes.get? id.name = some shape ∧ ¬ Fits id.indices shape

/-- The values of data lie within their arrays. -/
theorem not_misplaces_of_value {bindings : Table String Datum} {data : Bindings}
    (hkeys : bindings.keys.Nodup) (hdata : flatten bindings = .ok data) {id : Identity}
    {n : Number Double} (hvalue : data.values.get? id = some n) : ¬ data.Misplaces id := by
  obtain ⟨hvalues, hshapes⟩ := flatten_eq_ok hkeys hdata
  rintro ⟨shape, hshape, hfits⟩
  rw [hvalues, given] at hvalue
  rw [hshapes] at hshape
  cases hd : bindings.get? id.name with
  | none => rw [hd] at hvalue; cases hvalue
  | some d =>
    rw [hd, Option.bind_some] at hvalue hshape
    obtain ⟨e, he, -⟩ := Option.bind_eq_some_iff.mp hvalue
    obtain ⟨js, hjs⟩ := Datum.indices_of_at? he
    rw [hjs] at he hfits
    have hmem := (Datum.mem_zip_leaves d hshape).mpr he
    exact hfits (mem_indexProduct_iff.mp (List.of_mem_zip hmem).1)

end Bindings

/-- The check of an identity against an array in which it does not lie is an error of shapes about
this identity. -/
theorem ShapeTable.checkBounds_eq_error {t : ShapeTable} {id : Identity} {shape : List Nat}
    (hshape : t.shape? id.name = some shape) (hfits : ¬ Fits id.indices shape)
    (statement : Option String) :
    ∃ cause, cause.errorClass = .shape ∧
      t.checkBounds id statement = .error ⟨cause, some id, statement⟩ := by
  unfold checkBounds checkRank
  rw [hshape]
  dsimp only
  by_cases hlength : shape.length = id.indices.length
  · rw [if_pos hlength]
    by_cases hpositive : id.indices.all (1 ≤ ·) = true
    · have hwithin : ¬ within id.indices shape = true := fun hwithin =>
        hfits (fits_iff.mpr ⟨hlength, hpositive, hwithin⟩)
      rw [if_pos hpositive, ok_bind, if_neg hwithin]
      exact ⟨_, rfl, rfl⟩
    · rw [if_neg hpositive]
      exact ⟨_, rfl, rfl⟩
  · rw [if_neg hlength]
    exact ⟨_, rfl, rfl⟩

namespace Unrolled

variable {α : Type} [Scalar α] {m : Model} {bindings : Table String Datum} {data : Bindings}
  {functions : FunctionTable α} {u : Unrolled α} {ctx : Context α} {site : Site} {use : IndexUse}
  {x : Task} {ref : Identity}

/-! ## What succeeds in an unrolling that succeeds -/

/-- The constants of an unrolled model lie within the arrays of data. -/
theorem constants_of_misplaces (hkeys : bindings.keys.Nodup)
    (h : make m bindings functions = .ok u) (href : u.data.Misplaces ref) :
    u.constants.get? ref = none := by
  cases hc : u.constants.get? ref with
  | none => rfl
  | some c =>
    obtain ⟨-, hdata, -⟩ := make_eq_ok_iff.mp h
    rcases constant_cases h hc with ⟨n, hn, -⟩ | ⟨-, d, hd, rfl, -⟩
    · exact absurd href (Bindings.not_misplaces_of_value hkeys hdata hn)
    · obtain ⟨shape, hshape, hfits⟩ := href
      have hdescribed := ((describes_of_make h).of_data _ shape hshape).2
      exact absurd (hdescribed d.target (List.mem_map_of_mem hd) rfl) hfits

/-- The tasks that folding asks for at an instance succeed in the passes behind it. -/
theorem runAll_of_reach (h : make m bindings functions = .ok u)
    (hsite : site ∈ (Folding.context functions u.data.shapes u.constants).reach
      (Folding.start m.statements)) :
    (∃ t ids, t.Describes u.data.shapes ids ∧
      (passContext m functions u.constants t).runAll site site.indexTasks = .ok ()) ∧
    ∀ lhs, site.lhs? = some lhs → ∃ t ids, t.Describes u.data.shapes ids ∧
      (passContext m functions u.constants t).runAll site site.meaningTasks = .ok () := by
  obtain ⟨targets, -, -, hwalk, hdefinitions⟩ := make_eq_ok_iff.mp h
  obtain ⟨events, htrace⟩ := Stmt.walkAll_eq_ok_iff.mp hwalk
  obtain ⟨hfinal, hsound⟩ := sound_of_trace htrace (sound_start u.data.shapes)
  -- the registration comes to all instances that folding comes to
  have hreached :=
    (htrace.reach_sublist fun e he lo hi => opens_of_folding (hsound e he)).subset hsite
  obtain ⟨e, he, rfl⟩ := List.mem_map.mp hreached
  obtain ⟨rest, later, hrest, -⟩ := htrace.of_mem he
  constructor
  · refine ⟨e.1.shapes, _, hsound e he, ?_⟩
    cases hrun : (passContext m functions u.constants e.1.shapes).runAll e.2 e.2.indexTasks with
    | ok => rfl
    | error f =>
      cases hrest with
      | step hstep =>
        rw [registering_step_eq_error hrun] at hstep
        cases hstep
  · intro lhs hlhs
    obtain ⟨id, -, hregistered⟩ := registered_of_trace htrace he hlhs
    obtain ⟨d, -, hdefine⟩ := exists_of_mapM hdefinitions (List.mem_reverse.mpr hregistered)
    refine ⟨u.shapes, _, hfinal, ?_⟩
    cases hrun : (passContext m functions u.constants u.shapes).runAll e.2 e.2.meaningTasks with
    | ok => rfl
    | error f =>
      rw [define_eq_error id hrun] at hdefine
      cases hdefine

/-- A task that folding asks for at an instance succeeds in one of the passes behind it. -/
theorem run_eq_ok_of_folding {K : Folding.Constants α}
    (hasks : Folding.AsksFor (Folding.context functions u.data.shapes K) site x)
    (hsite : site.statement.Valid) (h : make m bindings functions = .ok u)
    (hreach : site ∈ (Folding.context functions u.data.shapes u.constants).reach
      (Folding.start m.statements)) :
    ∃ t ids, t.Describes u.data.shapes ids ∧
      (passContext m functions u.constants t).run site x = .ok () := by
  obtain ⟨hindices, hmeaning⟩ := runAll_of_reach h hreach
  obtain ⟨hvalid, hvalid'⟩ := Site.valid_tasks hsite
  cases hasks with
  | index _ htask hmeets =>
    obtain ⟨t, ids, hdescribes, hrun⟩ := hindices
    have htask' := Context.run_of_runAll hrun _ htask.mem
    exact ⟨t, ids, hdescribes, hmeets.run_eq_ok (hvalid _ htask.mem) htask'⟩
  | @value comment lhs rhs _ _ hs _ _ hmeets =>
    have hmem : Task.expr rhs ∈ site.meaningTasks :=
      Site.meaningTasks_assign hs ▸ List.mem_singleton_self _
    have hlhs : site.lhs? = some lhs := by
      unfold Site.lhs?
      rw [hs]
    obtain ⟨t, ids, hdescribes, hrun⟩ := hmeaning lhs hlhs
    have htask' := Context.run_of_runAll hrun _ hmem
    exact ⟨t, ids, hdescribes, hmeets.run_eq_ok (hvalid' _ hmem) htask'⟩

/-! ## References that are left -/

/-- The second pass resolves the right-hand side of an instance and comes to the check of a
reference that is left there. -/
inductive Leaves (m : Model) (data : Bindings) (functions : FunctionTable α) (site : Site)
    (source : String) (ref : Identity) : Prop
  | intro {K : Folding.Constants α} {p : Progress} {target : Identity} {meaning : Meaning}
      {refs : List Identity}
      (hfolding : Folding.constants functions m.statements data = .ok K)
      (hwalk : Stmt.walkAll (registering (passContext m functions K)) []
        ⟨ShapeTable.ofData data.shapes, []⟩ m.statements = .ok p)
      (hcomes : ComesTo (fun t => define (passContext m functions K) p.shapes t.1 t.2)
        p.targets.reverse (site, target))
      (hmeaning : resolveMeaning (passContext m functions K p.shapes) site = .ok meaning)
      (hrefs : meaning.refs = .ok refs) (hsource : site.source = .ok source)
      (hcheck : ComesTo (fun ref => p.shapes.checkBounds ref (some source)) refs ref)

/-- A definition fails with the first reference that fails its check. -/
theorem define_eq_error_of_check {context : ShapeTable → Context α} {shapes : ShapeTable}
    {target : Identity} {meaning : Meaning} {refs : List Identity} {source : String}
    {err : CompileError} (hmeaning : resolveMeaning (context shapes) site = .ok meaning)
    (hrefs : meaning.refs = .ok refs) (hsource : site.source = .ok source)
    (hcheck : ComesTo (fun ref => shapes.checkBounds ref (some source)) refs ref)
    (hbounds : shapes.checkBounds ref (some source) = .error err) :
    define context shapes site target = .error (.compile err) := by
  have hchecks : (refs.forM fun ref =>
      (shapes.checkBounds ref (some source) : Except Failure Unit)) = .error (.compile err) := by
    obtain ⟨front, back, rfl, hfront⟩ := hcheck
    refine forM_eq_error ⟨front, back, rfl, fun y hy => ?_⟩ ?_
    · obtain ⟨u, hu⟩ := hfront y hy
      exact ⟨u, lift_compile_eq_ok.mpr hu⟩
    · rw [hbounds]
      rfl
  unfold define
  dsimp only
  rw [Context.explain_eq_ok.mpr hmeaning, ok_bind, lift_malformed_eq_ok.mpr hrefs, ok_bind,
    lift_malformed_eq_ok.mpr hsource, ok_bind]
  exact bind_eq_error.mpr (Or.inl hchecks)

/-- A reference that is left and does not lie in its array ends the unrolling. -/
theorem Leaves.make_eq_error {source : String} (h : Leaves m data functions site source ref)
    (hdata : Bindings.flatten bindings = .ok data) (href : data.Misplaces ref) :
    ∃ cause, cause.errorClass = .shape ∧
      make m bindings functions = .error (.compile ⟨cause, some ref, some source⟩) := by
  obtain ⟨hfolding, hwalk, hcomes, hmeaning, hrefs, hsource, hcheck⟩ := h
  obtain ⟨shape, hshape, hfits⟩ := href
  have hsound := sound_of_runs (Stmt.walkAll_eq_ok_iff.mp hwalk) (sound_start data.shapes)
  obtain ⟨cause, hcause, hbounds⟩ := ShapeTable.checkBounds_eq_error
    (hsound.of_data _ shape hshape).1 hfits (some source)
  refine ⟨cause, hcause, ?_⟩
  rw [make_eq, hdata, ok_bind, hfolding, ok_bind, makeWith]
  refine bind_eq_error.mpr (Or.inr ⟨_, hwalk, bind_eq_error.mpr (Or.inl ?_)⟩)
  refine mapM_eq_error_iff.mpr ⟨_, hcomes, ?_⟩
  exact define_eq_error_of_check hmeaning hrefs hsource hcheck hbounds

/-! ## References that are read -/

/-- An unrolling asks for a task, while constants are folded or in one of the passes. -/
inductive Asks (m : Model) (data : Bindings) (functions : FunctionTable α) :
    Context α → Site → Task → Prop
  | folding {L : Folding.Constants α} {site : Site} {x : Task}
      (hcomes : Folding.ComesTo functions data.shapes m.statements (Folding.ofData data) L site)
      (hasks : Folding.AsksFor (Folding.context functions data.shapes L) site x) :
      Asks m data functions (Folding.context functions data.shapes L) site x
  | passes {ctx : Context α} {site : Site} {use : IndexUse} {x : Task}
      (hasks : AsksFor m data functions ctx site use x) : Asks m data functions ctx site x

/-- An index or a bound that the passes ask for and that reads an unknown value ends the unrolling:
the value is not data, or there is no such variable. -/
theorem AsksFor.make_eq_error_of_reads {i : Expr}
    (h : AsksFor m data functions ctx site use (.index i)) (hm : m.check = .ok ())
    (hdata : Bindings.flatten bindings = .ok data) (hreads : ctx.IndexReads site i ref)
    (hnone : ctx.constants.get? ref = none) :
    ∃ source, site.source = .ok source ∧
      make m bindings functions = .error (.compile
        (if (Stmt.definedNames m.statements).contains (.text ref.name) then
          ⟨.notData use ref, none, some source⟩
        else ⟨.undefinedIndex use ref, some ref, some source⟩)) := by
  obtain ⟨K, t, ids, -, -, rfl, hvalid⟩ := h.exists_context hm
  obtain ⟨source, hsource⟩ := Site.succeeds_source hvalid
  refine ⟨source, hsource, ?_⟩
  rw [h.make_eq_error hm hdata (hreads.run_eq_error hnone), Except.error.injEq]
  unfold Context.report
  dsimp only
  rw [hsource]
  dsimp only [passContext, context]
  exact (apply_ite Failure.compile _ _ _).symm

/-- No unrolling succeeds in which an index or a bound reads a value that is not known in the
end. -/
theorem Asks.make_ne_ok {i : Expr} (h : Asks m data functions ctx site (.index i))
    (hm : m.check = .ok ()) (hdata : Bindings.flatten bindings = .ok data)
    (hreads : ctx.IndexReads site i ref)
    (hnone : ∀ u, make m bindings functions = .ok u → u.constants.get? ref = none)
    (u : Unrolled α) : make m bindings functions ≠ .ok u := by
  intro hu
  obtain ⟨targets, hdata', hconstants, -⟩ := make_eq_ok_iff.mp hu
  rw [hdata, Except.ok.injEq] at hdata'
  subst hdata'
  have hnone := hnone u hu
  cases h with
  | passes hasks =>
    obtain ⟨K, t, ids, hK, -, rfl, -⟩ := hasks.exists_context hm
    rw [hconstants, Except.ok.injEq] at hK
    subst hK
    rw [hasks.make_eq_error hm hdata (hreads.run_eq_error hnone)] at hu
    cases hu
  | @folding L _ _ hcomes hasks =>
    obtain ⟨hle, hreach⟩ := hcomes.final hconstants
    -- the passes ask for the index as well, and know at least as much
    obtain ⟨t, ids, hdescribes, hrun⟩ := run_eq_ok_of_folding hasks (hcomes.valid hm) hu hreach
    have hbelow : (Folding.context functions u.data.shapes L).Below
        (passContext m functions u.constants t) := ⟨rfl, hle⟩
    have hslots (slot : Slot) : Settles Failure.IsStuck
        ((Folding.context functions u.data.shapes u.constants).selection site slot)
        ((passContext m functions u.constants t).selection site slot) :=
      selection_settles hdescribes site slot
    obtain ⟨e, hresolve, hread⟩ := hreads
    have hresolve' := (Context.resolve_settles hbelow (Site.Alike.refl site) i
      fun slot _ => hslots slot).eq_ok hresolve
    have hreads' : (passContext m functions u.constants t).IndexReads site i ref :=
      ⟨e, hresolve', hread.of_below hbelow⟩
    rw [hreads'.run_eq_error hnone] at hrun
    cases hrun

/-- An empty slot of an array of data with another number of indices is an error of shapes. -/
theorem Asks.make_of_extent {name : String} {d rank : Nat} {shape : List Nat}
    (h : Asks m data functions ctx site (.extent name d rank)) (hm : m.check = .ok ())
    (hdata : Bindings.flatten bindings = .ok data) (hshape : data.shapes.get? name = some shape)
    (hrank : shape.length ≠ rank) :
    ∃ source, site.source = .ok source ∧
      make m bindings functions =
        .error (.compile ⟨.wrongRank name shape.length rank, none, some source⟩) := by
  have hrefuses : ∀ {ctx : Context α} {source : String}, ctx.shapeOf name = .ok shape →
      site.source = .ok source → ctx.run site (.extent name d rank) =
        .error (.compile ⟨.wrongRank name shape.length rank, none, some source⟩) := by
    intro ctx source hknown hsource
    rw [Context.run, discard_eq_error]
    unfold Context.wholeDimension Site.refuse
    rw [hknown, ok_bind, if_pos hrank, hsource]
    rfl
  cases h with
  | @folding L _ _ hcomes hasks =>
    obtain ⟨source, hsource⟩ := Site.succeeds_source (hcomes.valid hm)
    have hknown : (Folding.context functions data.shapes L).shapeOf name = .ok shape := by
      unfold Folding.context
      dsimp only
      rw [hshape]
    have hstep := hasks.step_eq_error (hcomes.valid hm) (hrefuses hknown hsource)
      Folding.not_tolerates_compile
    exact ⟨source, hsource, make_eq_error_of_comesTo hdata hcomes hstep⟩
  | @passes _ _ use _ hasks =>
    obtain ⟨K, t, ids, -, hdescribes, rfl, hvalid⟩ := hasks.exists_context hm
    obtain ⟨source, hsource⟩ := Site.succeeds_source hvalid
    have hknown : (passContext m functions K t).shapeOf name = .ok shape := by
      unfold passContext context
      dsimp only
      rw [(hdescribes.of_data _ shape hshape).1]
    exact ⟨source, hsource, hasks.make_eq_error hm hdata (hrefuses hknown hsource)⟩

/-- A reference to an array of data that does not lie in it never goes unnoticed. If it is left on a
right-hand side, it is an error of shapes. If an index or a bound reads it, no unrolling succeeds;
unless a logical statement gives it a value, the error says in the passes that it is not data, or
that there is no such variable if the model does not define the array. An empty slot of an array
with another number of indices is an error of shapes everywhere. -/
theorem make_of_misplaces (hm : m.check = .ok ()) (hkeys : bindings.keys.Nodup)
    (hdata : Bindings.flatten bindings = .ok data) (href : data.Misplaces ref) :
    (∀ site source, Leaves m data functions site source ref →
      ∃ cause, cause.errorClass = .shape ∧
        make m bindings functions = .error (.compile ⟨cause, some ref, some source⟩)) ∧
    (∀ ctx site use i, AsksFor m data functions ctx site use (.index i) →
      ctx.IndexReads site i ref → ctx.constants.get? ref = none →
      ∃ source, site.source = .ok source ∧
        make m bindings functions = .error (.compile
          (if (Stmt.definedNames m.statements).contains (.text ref.name) then
            ⟨.notData use ref, none, some source⟩
          else ⟨.undefinedIndex use ref, some ref, some source⟩))) ∧
    (∀ ctx site i, Asks m data functions ctx site (.index i) → ctx.IndexReads site i ref →
      ∀ u, make m bindings functions ≠ .ok u) ∧
    ∀ ctx site name d rank shape, Asks m data functions ctx site (.extent name d rank) →
      data.shapes.get? name = some shape → shape.length ≠ rank →
      ∃ source, site.source = .ok source ∧
        make m bindings functions =
          .error (.compile ⟨.wrongRank name shape.length rank, none, some source⟩) := by
  refine ⟨fun site source hleaves => hleaves.make_eq_error hdata href,
    fun ctx site use i hasks hreads hnone => hasks.make_eq_error_of_reads hm hdata hreads hnone,
    fun ctx site i hasks hreads => hasks.make_ne_ok hm hdata hreads fun u hu => ?_,
    fun ctx site name d rank shape hasks hshape hrank =>
      hasks.make_of_extent hm hdata hshape hrank⟩
  obtain ⟨-, hdata', -⟩ := make_eq_ok_iff.mp hu
  rw [hdata, Except.ok.injEq] at hdata'
  exact constants_of_misplaces hkeys hu (hdata' ▸ href)

/-! ## A group without a number -/

/-- The functions that constants are folded with. -/
def groupFunctions : FunctionTable Dual := (Registry.builtin : Registry Dual).foldingFunctions

/-- The effect of the first group. -/
def groupPrior : Site where
  statement := .sample [] (.index (.text "alpha") [.literal (.int 1)])
    (.dist { name := .text "dnorm", params := [.literal (.int 0), .literal (.int 1)] })
  env := []

/-- A case with the effect of its group, the group being that of the third case. -/
def groupCase : Site where
  statement := .sample [] (.var (.text "y")) (.dist
    { name := .text "dnorm",
      params := [.index (.text "alpha") [.index (.text "group") [.literal (.int 3)]],
        .literal (.int 1)] })
  env := []

/-- The model of these two instances. -/
def groupModel : Model := { statements := [groupPrior.statement, groupCase.statement] }

/-- There are two cases only, both of the first group. -/
def groupData : Table String Datum := ⟨[("group", .list [.int 1, .int 1])]⟩

/-- The groups as flat data. -/
def groupBindings : Bindings :=
  ⟨⟨[(⟨"group", [1]⟩, .int 1), (⟨"group", [2]⟩, .int 1)]⟩, ⟨[("group", [2])]⟩⟩

/-- The state behind the first pass. -/
def groupProgress : Progress where
  shapes := ⟨⟨[("group", [2])]⟩, ⟨[("group", [2]), ("alpha", [1]), ("y", [])]⟩⟩
  targets := [(groupCase, ⟨"y", []⟩), (groupPrior, ⟨"alpha", [1]⟩)]

/-- The context of the second pass. -/
def groupContext : Context Dual :=
  passContext groupModel groupFunctions (Folding.ofData groupBindings) groupProgress.shapes

/-- The third entry of the data is out of their bounds. -/
theorem misplaces_groupBindings : groupBindings.Misplaces ⟨"group", [3]⟩ := by
  refine ⟨[2], rfl, fun hfits => ?_⟩
  have hthree : (3 : Int) ≤ 2 := hfits.index_le (d := 0) rfl rfl
  omega

/-- The second pass asks for the group. -/
theorem asksFor_groupModel :
    AsksFor groupModel groupBindings groupFunctions groupContext groupCase .index
      (.index (.index (.text "group") [.literal (.int 3)])) := by
  have hfolding : Folding.constants groupFunctions groupModel.statements groupBindings =
      .ok (Folding.ofData groupBindings) := by
    unfold Folding.constants Folding.saturate
    rfl
  have hprior : Succeeds (define (passContext groupModel groupFunctions
      (Folding.ofData groupBindings)) groupProgress.shapes groupPrior ⟨"alpha", [1]⟩) := ⟨_, rfl⟩
  refine .defining (p := groupProgress) hfolding rfl
    ⟨[(groupPrior, ⟨"alpha", [1]⟩)], [], rfl, List.forall_mem_singleton.mpr hprior⟩
    ⟨[], _, rfl, List.forall_mem_nil _⟩
    (.within ⟨[_], [], rfl, List.forall_mem_singleton.mpr ⟨(), rfl⟩⟩ (.here _))

/-- The index of the case comes to this entry. -/
theorem indexReads_groupModel :
    groupContext.IndexReads groupCase (.index (.text "group") [.literal (.int 3)])
      ⟨"group", [3]⟩ := ⟨_, rfl, .ref _⟩

/-- The group of the third case is said to be undefined. -/
theorem make_groupModel :
    groupModel.check = .ok () ∧ groupData.keys.Nodup ∧
    Bindings.flatten groupData = .ok groupBindings ∧
    groupBindings.Misplaces ⟨"group", [3]⟩ ∧
    make groupModel groupData groupFunctions =
      .error (.compile ⟨.undefinedIndex .index ⟨"group", [3]⟩, some ⟨"group", [3]⟩,
        some "y ~ dnorm(alpha[group[3]], 1)"⟩) := by
  have hkeys : groupData.keys.Nodup := by decide
  have hdata : Bindings.flatten groupData = .ok groupBindings := rfl
  obtain ⟨source, hsource, hmake⟩ := (make_of_misplaces rfl hkeys hdata
    misplaces_groupBindings).2.1 _ _ _ _ asksFor_groupModel indexReads_groupModel rfl
  obtain rfl : "y ~ dnorm(alpha[group[3]], 1)" = source := by
    have htext : groupCase.source = .ok "y ~ dnorm(alpha[group[3]], 1)" := rfl
    rw [hsource, Except.ok.injEq] at htext
    exact htext.symm
  exact ⟨rfl, hkeys, hdata, misplaces_groupBindings, hmake⟩

/-- That is no error of shapes, although the array of groups is data. -/
theorem not_shape_groupModel :
    groupModel.check = .ok () ∧ Bindings.flatten groupData = .ok groupBindings ∧
    groupBindings.Misplaces ⟨"group", [3]⟩ ∧
    AsksFor groupModel groupBindings groupFunctions groupContext groupCase .index
      (.index (.index (.text "group") [.literal (.int 3)])) ∧
    groupContext.IndexReads groupCase (.index (.text "group") [.literal (.int 3)])
      ⟨"group", [3]⟩ ∧
    ∃ err, make groupModel groupData groupFunctions = .error (.compile err) ∧
      err.cause.errorClass = .unresolved := by
  have hdata : Bindings.flatten groupData = .ok groupBindings := rfl
  have hmake := asksFor_groupModel.make_eq_error rfl hdata
    (indexReads_groupModel.run_eq_error rfl)
  exact ⟨rfl, hdata, misplaces_groupBindings, asksFor_groupModel, indexReads_groupModel, _, hmake,
    rfl⟩

end Unrolled

end BayesGraph
