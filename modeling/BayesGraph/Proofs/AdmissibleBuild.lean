import BayesGraph.Proofs.AdmissibleResolution
import BayesGraph.Proofs.FoldingErrors
import BayesGraph.Proofs.IdentifierTexts

/-!
# How the build of a valid model can fail

The passes of a build, one by one: the data is read, the constants are folded, the loops are
unrolled and the definitions become nodes. For a model that validation accepts and whose names are
used without ambiguity, each of them has admissible failures only, whatever the data and the
registry are.
-/

set_option autoImplicit false

namespace BayesGraph

open Outcome

/-! ## Names -/

namespace Names

/-- If the names of a model are used without ambiguity, its loop variables are texts, and none of
them is defined on a left-hand side. -/
theorem loops_of_verdict {m : Model} {dataNames : List String} {reserved : String → Bool}
    {used : List Datum} (h : verdict m dataNames reserved = .ok used) :
    ∀ name ∈ Stmt.loopNamesOfAll m.statements,
      (∃ t, name = .text t) ∧ name ∉ Stmt.targetsOfAll m.statements := by
  have hnames := verdict_eq_ok_iff.mp h
  intro name hname
  have hloop : name ∈ Stmt.loopVariables m.statements := mem_distinct.mpr hname
  constructor
  · obtain ⟨t, ht, -⟩ :=
      isIdentifierObject_iff.mp (hnames.identifier name (List.mem_append_right used hloop))
    exact ⟨t, ht⟩
  · exact (hnames.unshadowed name hloop).1

end Names

/-! ## Data -/

namespace Bindings

variable {α : Type} {functions : FunctionTable α}

/-- Data that are no numbers are rejected admissibly. -/
theorem admissible_entry (name : String) (d : Datum) :
    FailsWith (Failure.Admissible functions) (entry name d) := by
  unfold entry
  split
  · exact .ok _
  · exact .error nofun
  · exact .error not_false

/-- Data that is unfit is refused as such. -/
theorem admissible_flatten (bindings : Table String Datum) :
    FailsWith (Failure.Admissible functions) (flatten bindings) := by
  refine FailsWith.foldlM (fun e _ b => ?_) _
  unfold add
  split
  · exact .error not_false
  · split
    · exact .error not_false
    · exact (FailsWith.mapM fun d _ => admissible_entry _ d).bind fun _ => .pure _

end Bindings

section Passes

variable {α : Type} [Scalar α] {functions : FunctionTable α}

/-! ## Folding -/

namespace Folding

variable {loops defined : List Datum} {shapes : Table String (List Nat)}

/-- The left-hand side of a proper instance is resolved, or fails admissibly. -/
theorem admissible_target {ctx : Context α} {site : Site} (hsite : site.Proper loops defined)
    (hloops : ∀ name ∈ loops, (∃ t, name = .text t) ∧ name ∉ defined)
    (hshapes : ctx.ShapesAdmissible) {s : Stmt} {lhs : Expr} (hlhs : lhs.checkTarget s = .ok ())
    (htarget : ∀ name, lhs = .var name → name ∈ site.statement.targets) :
    FailsWith (Failure.AdmissibleUnrolling ctx.functions) (ctx.resolveTarget site lhs) :=
  Context.admissible_resolveTarget hsite.valid hshapes hlhs fun name hname =>
    hsite.free hloops (htarget name hname)

omit [Scalar α] in
/-- In a round of folding a shape is found, or this fails admissibly. -/
theorem shapesAdmissible_context (K : Constants α) :
    (context functions shapes K).ShapesAdmissible := by
  intro name
  unfold context
  dsimp only
  split
  · exact .ok _
  · exact .error nofun

/-- A visit of a proper instance fails admissibly. -/
theorem admissible_visit (hloops : ∀ name ∈ loops, (∃ t, name = .text t) ∧ name ∉ defined)
    (K : Constants α) {site : Site} (hsite : site.Proper loops defined) :
    FailsWith (Failure.AdmissibleUnrolling functions) (visit functions shapes K site) := by
  obtain ⟨loops', hcheck⟩ := hsite.valid
  unfold visit
  split
  · next comment lhs rhs hs =>
    obtain ⟨_, _, _, hs', -⟩ | ⟨_, _, _, hs', hlhs, hrhs⟩ | ⟨_, _, _, _, _, hs', -⟩ :=
      Stmt.check_cases hcheck
    · simp [hs'] at hs
    · rw [hs'] at hs
      cases hs
      have hshapes : (context functions shapes K).ShapesAdmissible := shapesAdmissible_context K
      have haddition : FailsWith (Failure.AdmissibleUnrolling functions)
          (addition (context functions shapes K) site lhs rhs) := by
        refine (admissible_target hsite hloops hshapes hlhs fun name hname => ?_).bind fun id => ?_
        · rw [hs', hname]
          exact List.mem_singleton_self name
        · split
          · exact .pure _
          · refine (Context.admissible_resolve hsite.valid hshapes rhs hrhs).bind_of_ok
              fun resolved hresolved => ?_
            have hresolved := Context.resolved_of_resolve rhs hrhs hresolved
            refine (FailsWith.lift_eval (hresolved.admissible_eval Context.evaluable_lookup)).bind
              fun v => ?_
            split
            · exact (FailsWith.lift_eval (Value.evaluable_toNumber v).admissible).bind
                fun n => .pure _
            · exact .pure _
      split
      · exact .ok _
      · exact .ok _
      · next e he =>
        split
        · exact .ok _
        · exact .error (haddition e he)
    · simp [hs'] at hs
  · exact .ok _

/-- The folding of the constants of a valid model fails admissibly. -/
theorem admissible_saturate {ss : List Stmt} (hss : Stmt.checkAll [] ss = .ok ())
    (hloops : ∀ name ∈ Stmt.loopNamesOfAll ss,
      (∃ t, name = .text t) ∧ name ∉ Stmt.targetsOfAll ss) (K : Constants α) :
    FailsWith (Failure.AdmissibleUnrolling functions) (saturate functions shapes ss K) := by
  have hround : ∀ K,
      FailsWith (Failure.AdmissibleUnrolling functions) (round functions shapes ss K) :=
    Stmt.admissible_walkAll hss (fun _ => rfl) (fun K => shapesAdmissible_context K)
      fun K site hsite _ => admissible_visit hloops K hsite
  have hsaturates := saturates_saturate functions shapes ss K
  generalize saturate functions shapes ss K = outcome at hsaturates
  induction hsaturates with
  | failed hfailed => exact .error (hround _ _ hfailed)
  | settled => exact .ok _
  | again _ _ _ ih => exact ih

end Folding

/-! ## Unrolling -/

namespace ShapeTable

omit [Scalar α] in
/-- The check of bounds fails only admissibly. -/
theorem admissible_checkBounds (t : ShapeTable) (id : Identity) (statement : Option String) :
    FailsWith (fun e => Failure.AdmissibleUnrolling functions (.compile e))
      (t.checkBounds id statement) :=
  (t.failsWith_checkBounds id statement).mono fun _ he => Or.inl he.errorClass

omit [Scalar α] in
/-- Observing an identity fails only admissibly. -/
theorem admissible_observe (t : ShapeTable) (id : Identity) (statement : Option String) :
    FailsWith (fun e => Failure.AdmissibleUnrolling functions (.compile e))
      (t.observe id statement) :=
  (t.failsWith_observe id statement).mono fun _ he => Or.inl he.errorClass

end ShapeTable

namespace Unrolled

variable {loops defined names : List Datum} {K : Folding.Constants α}

omit [Scalar α] in
/-- During the registration a shape is found, or this fails admissibly. -/
theorem shapesAdmissible_context (t : ShapeTable) :
    (context functions K names t).ShapesAdmissible := by
  intro name
  unfold context
  dsimp only
  split
  · exact .ok _
  · exact .error (Or.inr (Or.inl rfl))

/-- The registration of a proper instance fails admissibly. -/
theorem admissible_visitTarget
    (hloops : ∀ name ∈ loops, (∃ t, name = .text t) ∧ name ∉ defined) (p : Progress) {site : Site}
    (hsite : site.Proper loops defined) (hrange : site.range? = none) :
    FailsWith (Failure.AdmissibleUnrolling functions)
      (visitTarget (context functions K names) p site) := by
  have hshapes : (context functions K names p.shapes).ShapesAdmissible :=
    shapesAdmissible_context p.shapes
  have hregister : ∀ {s : Stmt} {lhs : Expr}, lhs.checkTarget s = .ok () →
      (∀ name, lhs = .var name → name ∈ site.statement.targets) →
      FailsWith (Failure.AdmissibleUnrolling functions) (do
        let id ← (context functions K names p.shapes).explain site .index
          ((context functions K names p.shapes).resolveTarget site lhs)
        let source ← site.source
        let shapes ← p.shapes.observe id (some source)
        return (⟨shapes, (site, id) :: p.targets⟩ : Progress)) := by
    intro s lhs hlhs htarget
    refine (Context.admissible_explain hsite.valid .index
      (Folding.admissible_target hsite hloops hshapes hlhs htarget)).bind fun id => ?_
    refine (FailsWith.lift_malformed (Site.succeeds_source hsite.valid)).bind fun source => ?_
    exact (FailsWith.lift_compile (p.shapes.admissible_observe id _)).bind fun _ => .pure _
  obtain ⟨loops', hcheck⟩ := hsite.valid
  unfold visitTarget
  rcases Stmt.check_cases hcheck with ⟨_, lhs, _, hs, hlhs, -⟩ | ⟨_, lhs, _, hs, hlhs, -⟩ |
    ⟨_, _, _, _, _, hs, -⟩
  · simp only [hs]
    refine hregister hlhs fun name hname => ?_
    rw [hs, hname]
    exact List.mem_singleton_self name
  · simp only [hs]
    refine hregister hlhs fun name hname => ?_
    rw [hs, hname]
    exact List.mem_singleton_self name
  · simp [Site.range?, hs] at hrange

/-- Loops are never registered: they define nothing. -/
theorem range?_of_registering {context : ShapeTable → Context α} {shapes : ShapeTable}
    {p : Progress} {ss : List Stmt}
    (h : Stmt.walkAll (registering context) [] ⟨shapes, []⟩ ss = .ok p) :
    ∀ t ∈ p.targets, t.1.range? = none := by
  intro t ht
  obtain ⟨-, known, htarget⟩ := registered_of_walk h t ht
  obtain ⟨lhs, hlhs, -⟩ := Context.target?_eq_some.mp htarget
  exact Site.range?_of_lhs hlhs

/-- The definition that a valid instance makes fails admissibly. -/
theorem admissible_define {shapes : ShapeTable} {site : Site} (hsite : site.statement.Valid)
    (hrange : site.range? = none) (id : Identity) :
    FailsWith (Failure.AdmissibleUnrolling functions)
      (define (context functions K names) shapes site id) := by
  have hshapes : (context functions K names shapes).ShapesAdmissible :=
    shapesAdmissible_context shapes
  have hmeaning : FailsWith (Failure.AdmissibleUnrolling functions)
      (resolveMeaning (context functions K names shapes) site) := by
    obtain ⟨loops, hcheck⟩ := hsite
    unfold resolveMeaning
    rcases Stmt.check_cases hcheck with ⟨_, _, d, hs, -, hd⟩ | ⟨_, _, rhs, hs, -, hrhs⟩ |
      ⟨_, _, _, _, _, hs, -⟩
    · simp only [hs]
      exact (Context.admissible_resolveDist ⟨loops, hcheck⟩ hshapes hd).bind fun _ => .pure _
    · simp only [hs]
      exact (Context.admissible_resolve ⟨loops, hcheck⟩ hshapes rhs hrhs).bind fun _ => .pure _
    · simp [Site.range?, hs] at hrange
  unfold define
  refine (Context.admissible_explain hsite .index hmeaning).bind_of_ok fun meaning hresolve => ?_
  have hresolved := resolved_of_resolveMeaning hsite (Context.explain_eq_ok.mp hresolve)
  refine (FailsWith.lift_malformed (Expr.succeeds_refsOfAll hresolved)).bind fun refs => ?_
  refine (FailsWith.lift_malformed (Site.succeeds_source hsite)).bind fun source => ?_
  refine (FailsWith.forM fun ref _ => ?_).bind fun _ => .pure _
  exact FailsWith.lift_compile (shapes.admissible_checkBounds ref _)

/-- Behind the check of the data, unrolling a valid model fails like the resolution of its
statements. -/
theorem admissible_make_of_flatten {m : Model} (hm : m.check = .ok ())
    (hloops : ∀ name ∈ Stmt.loopNamesOfAll m.statements,
      (∃ t, name = .text t) ∧ name ∉ Stmt.targetsOfAll m.statements)
    {bindings : Table String Datum} {data : Bindings}
    (hdata : Bindings.flatten bindings = .ok data) :
    FailsWith (Failure.AdmissibleUnrolling functions) (make m bindings functions) := by
  unfold make
  rw [hdata, ok_bind]
  refine (Folding.admissible_saturate hm hloops _).bind fun K => ?_
  have hregister : FailsWith (Failure.AdmissibleUnrolling functions) (Stmt.walkAll
      (registering (context functions K (Stmt.definedNames m.statements))) []
      ⟨ShapeTable.ofData data.shapes, []⟩ m.statements) :=
    Stmt.admissible_walkAll hm (fun _ => rfl) (fun p => shapesAdmissible_context p.shapes)
      (fun p site hsite hrange => admissible_visitTarget hloops p hsite hrange) _
  refine hregister.bind_of_ok fun p hp => ?_
  refine FailsWith.bind (FailsWith.mapM fun t ht => ?_) fun definitions => .pure _
  have ht := List.mem_reverse.mp ht
  exact admissible_define (valid_of_registering hm hp t ht) (range?_of_registering hp t ht) _

/-- Unrolling a valid model fails admissibly. -/
theorem admissible_make {m : Model} (hm : m.check = .ok ())
    (hloops : ∀ name ∈ Stmt.loopNamesOfAll m.statements,
      (∃ t, name = .text t) ∧ name ∉ Stmt.targetsOfAll m.statements)
    (bindings : Table String Datum) :
    FailsWith (Failure.Admissible functions) (make m bindings functions) := by
  cases hdata : Bindings.flatten bindings with
  | error e =>
    have hmake : make m bindings functions = .error e := by
      unfold make
      rw [hdata]
      rfl
    rw [hmake]
    exact .error (Bindings.admissible_flatten bindings e hdata)
  | ok data => exact (admissible_make_of_flatten hm hloops hdata).mono fun _ h => h.admissible

end Unrolled

/-! ## Graphs -/

namespace Definition

omit [Scalar α] in
/-- The check of a distribution fails only admissibly. -/
theorem admissible_checkFamily (d : Definition) (law : Dist) (f : Family α) (observed : Bool) :
    FailsWith (Failure.Admissible functions) (d.checkFamily law f observed) := by
  unfold checkFamily
  split
  · exact .error not_false
  · split
    · exact .error not_false
    · split
      · exact .error not_false
      · exact .ok _

omit [Scalar α] in
/-- The check of the called names fails only admissibly. -/
theorem admissible_checkCalls (d : Definition) (r : Registry α) :
    FailsWith (Failure.Admissible functions) (d.checkCalls r) := by
  unfold checkCalls
  dsimp only
  split
  · exact .error not_false
  · exact .ok _

end Definition

namespace Graph

variable {r : Registry α}

omit [Scalar α] in
/-- The role of a node is found, or this fails admissibly. -/
theorem admissible_roleOf (data : Bindings) (d : Definition) :
    FailsWith (Failure.Admissible functions) (roleOf r data d) := by
  unfold roleOf
  split
  · next law _ =>
    unfold Registry.family
    split
    · next he =>
      split at he
      · cases he
      · cases he
        exact .error not_false
    · refine (d.admissible_checkFamily law _ _).bind fun _ => ?_
      split
      · exact .pure _
      · exact .pure _
  · exact .ok _
  · exact .ok _

omit [Scalar α] in
/-- References are resolved, or this fails admissibly. -/
theorem admissible_resolveRefs (data : Bindings) (d : Definition) (refs : List Identity)
    (links : Links) : FailsWith (Failure.Admissible functions) (links.resolveAll data d refs) := by
  induction refs generalizing links with
  | nil => exact .ok _
  | cons ref rest ih =>
    rw [Links.resolveAll]
    refine FailsWith.bind ?_ fun first => (ih _).bind fun others => .pure _
    unfold Links.resolve
    split
    · exact .ok _
    · split
      · exact .ok _
      · refine .error ?_
        dsimp only [Failure.Admissible]
        split <;> exact not_false

omit [Scalar α] in
/-- The assembly of a graph fails admissibly. -/
theorem admissible_ofUnrolled {β : Type} (u : Unrolled β) :
    FailsWith (Failure.Admissible functions) (ofUnrolled u r) := by
  unfold ofUnrolled
  dsimp only
  refine FailsWith.bind (FailsWith.mapM fun d _ => ?_) fun nodes => ?_
  · refine (admissible_roleOf u.data d).bind fun role => ?_
    exact (d.admissible_checkCalls r).bind fun _ => .pure _
  · refine FailsWith.bind (FailsWith.foldlM (fun d _ links => ?_) _) fun links => ?_
    · exact (admissible_resolveRefs u.data d _ links).bind fun _ => .pure _
    · unfold assemble
      dsimp only
      split
      · exact .error not_false
      · exact .ok _

/-- The build of a valid model fails admissibly, if names are used without ambiguity. -/
theorem admissible_build {m : Model} {bindings : Table String Datum} {used : List Datum}
    (hm : m.check = .ok ()) (hnames : Names.verdict m bindings.keys r.contains = .ok used) :
    FailsWith (Failure.Admissible r.foldingFunctions) (build m bindings r).collect.1 := by
  rw [build_result, hnames, ok_bind]
  refine (Unrolled.admissible_make hm (Names.loops_of_verdict hnames) bindings).bind fun u => ?_
  exact admissible_ofUnrolled u

end Graph

end Passes

end BayesGraph
