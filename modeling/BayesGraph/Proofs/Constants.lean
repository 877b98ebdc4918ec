import BayesGraph.Proofs.Fixpoint
import BayesGraph.Proofs.Registration
import BayesGraph.Proofs.Solution

/-!
# Constants and the graph

The constants that resolve indices and loop bounds come from data and from logical statements. The
graph takes the first definition of an identity, whatever it is; folding takes the first one that it
can evaluate. A constant is disputed if the definition that counts does not fold to it. Then an
ignored definition supplies it.

In an evaluation all constants have their values in the graph exactly if the disputed ones do. The
induction runs from the references of a node to the node.
-/

set_option autoImplicit false

namespace BayesGraph

open Outcome

variable {α : Type} [Scalar α]

/-! ## Folding and unrolling resolve alike -/

/-- The environment in which the values of resolved expressions are folded. -/
def Folding.environment (functions : FunctionTable α) (constants : Folding.Constants α) :
    Environment α :=
  (Folding.context functions Table.empty constants).folding

/-- The meaning of a definition is an expression, and its value is a constant. -/
def Definition.FoldsTo (d : Definition) (functions : FunctionTable α)
    (constants : Folding.Constants α) (c : Number α) : Prop :=
  ∃ e v, d.meaning = .expr e ∧ e.eval (Folding.environment functions constants) = .ok v ∧
    v.shape.isEmpty = true ∧ v.toNumber = .ok c

/-- A value is a constant, or it equals the constant as a scalar. -/
def Value.Agrees (x : Value α) (c : Number α) : Prop :=
  x = .number c ∨ ∃ y, x.toScalar = .ok y ∧ Value.ofNumber c = .ok y

namespace Unrolled

omit [Scalar α] in
/-- A slot that can be resolved while constants are folded is resolved alike in the unrolling. -/
theorem selection_settles {functions : FunctionTable α} {constants : Folding.Constants α}
    {defined : List Datum} {data : Table String (List Nat)} {t : ShapeTable} {ids : List Identity}
    (ht : t.Describes data ids) (site : Site) (slot : Slot) :
    Settles Failure.IsStuck
      ((Folding.context functions data constants).selection site slot)
      ((context functions constants defined t).selection site slot) := by
  unfold Context.selection Context.wholeDimension
  refine Settles.bind ?_ fun shape _ => Settles.refl _
  unfold Folding.context context
  dsimp only
  cases hdata : data.get? slot.name with
  | none => exact Or.inr ⟨_, ⟨_, rfl⟩, rfl⟩
  | some shape =>
    rw [(ht.of_data _ shape hdata).1]
    exact Settles.refl _

omit [Scalar α] in
/-- A context of unrolling knows the constants that were found, as the last context of folding. -/
theorem folding_below {functions : FunctionTable α} {constants : Folding.Constants α}
    {defined : List Datum} {data : Table String (List Nat)} {t : ShapeTable} :
    (Folding.context functions data constants).Below (context functions constants defined t) :=
  ⟨rfl, Table.Le.refl _⟩

/-- A loop that opens while constants are folded opens alike in the unrolling. -/
theorem opens_of_folding {functions : FunctionTable α} {constants : Folding.Constants α}
    {defined : List Datum} {data : Table String (List Nat)} {t : ShapeTable} {ids : List Identity}
    (ht : t.Describes data ids) {site : Site} {lo hi : Int}
    (h : (Folding.context functions data constants).Opens site lo hi) :
    (context functions constants defined t).Opens site lo hi := by
  obtain ⟨start, stop, hrange, hbounds⟩ := h
  exact ⟨start, stop, hrange, (Context.evalBounds_settles folding_below (Site.Alike.refl site) start
    stop fun slot _ => selection_settles ht site slot).eq_ok hbounds⟩

/-- A logical statement that folding comes to and resolves makes a definition of the unrolled model,
with the same identity and the same expression. -/
theorem define_of_folding {m : Model} {bindings : Table String Datum}
    {functions : FunctionTable α} {u : Unrolled α} (h : make m bindings functions = .ok u)
    {site : Site} {comment : List String} {lhs rhs resolved : Expr} {id : Identity}
    (hsite : site ∈ (Folding.context functions u.data.shapes u.constants).reach
      (Folding.start m.statements))
    (hstatement : site.statement = .assign comment lhs rhs)
    (hid : (Folding.context functions u.data.shapes u.constants).resolveTarget site lhs = .ok id)
    (hresolved : (Folding.context functions u.data.shapes u.constants).resolve site rhs =
      .ok resolved) :
    ∃ d ∈ u.definitions, d.target = id ∧ d.meaning = .expr resolved ∧
      define (context functions u.constants (Stmt.definedNames m.statements)) u.shapes site id =
        .ok d := by
  obtain ⟨targets, -, -, hwalk, hdefinitions⟩ := make_eq_ok_iff.mp h
  obtain ⟨events, hrun⟩ := Stmt.walkAll_eq_ok_iff.mp hwalk
  obtain ⟨hfinal, hsound⟩ := sound_of_trace hrun (sound_start u.data.shapes)
  -- the registration comes to all instances that folding comes to
  have hreached := (hrun.reach_sublist fun e he lo hi => opens_of_folding (hsound e he)).subset hsite
  obtain ⟨e, he, rfl⟩ := List.mem_map.mp hreached
  have hlhs : e.2.lhs? = some lhs := Site.lhs?_of_assign hstatement
  obtain ⟨id', hid', hregistered⟩ := registered_of_trace hrun he hlhs
  have hsame : (context functions u.constants (Stmt.definedNames m.statements)
      e.1.shapes).resolveTarget e.2 lhs = .ok id :=
    (Context.resolveTarget_settles folding_below (Site.Alike.refl e.2) lhs
      fun slot _ => selection_settles (hsound e he) e.2 slot).eq_ok hid
  rw [hsame, Except.ok.injEq] at hid'
  subst hid'
  obtain ⟨d, hd, hdefine⟩ := exists_of_mapM hdefinitions (List.mem_reverse.mpr hregistered)
  obtain ⟨htarget, hmeaning, -⟩ := define_eq_ok hdefine
  rw [Context.explain_eq_ok] at hmeaning
  unfold resolveMeaning at hmeaning
  rw [hstatement] at hmeaning
  simp only [bind_eq_ok, pure_eq_ok] at hmeaning
  obtain ⟨e', he', hmeaning⟩ := hmeaning
  have hsame' : (context functions u.constants (Stmt.definedNames m.statements)
      u.shapes).resolve e.2 rhs = .ok resolved :=
    (Context.resolve_settles folding_below (Site.Alike.refl e.2) rhs
      fun slot _ => selection_settles hfinal e.2 slot).eq_ok hresolved
  rw [hsame', Except.ok.injEq] at he'
  subst he'
  exact ⟨d, hd, htarget, hmeaning.symm, hdefine⟩

/-- What a statement instance supports is the value of a definition of the unrolled model. -/
theorem definition_of_supports {m : Model} {bindings : Table String Datum}
    {functions : FunctionTable α} {u : Unrolled α} (h : make m bindings functions = .ok u)
    {site : Site} {id : Identity} {c : Number α}
    (hsite : site ∈ (Folding.context functions u.data.shapes u.constants).reach
      (Folding.start m.statements))
    (hsupports : Folding.Supports (Folding.context functions u.data.shapes u.constants) site id c) :
    ∃ d ∈ u.definitions, d.target = id ∧ d.FoldsTo functions u.constants c := by
  obtain ⟨comment, lhs, rhs, resolved, v, hstatement, hid, hresolved, hv, hshape, hc⟩ := hsupports
  obtain ⟨d, hd, htarget, hmeaning, -⟩ := define_of_folding h hsite hstatement hid hresolved
  exact ⟨d, hd, htarget, resolved, v, hmeaning, hv, hshape, hc⟩

/-! ## Disputed constants -/

/-- The first definition of an identity, the one that counts in the graph. -/
def first? (u : Unrolled α) (v : Identity) : Option Definition :=
  u.definitions.find? fun d => decide (d.target = v)

/-- A constant that is not in the data, and to which the definition that counts does not fold. -/
structure Disputed (u : Unrolled α) (functions : FunctionTable α) (v : Identity) (c : Number α) :
    Prop where
  constant : u.constants.get? v = some c
  not_data : u.data.values.get? v = none
  not_first : ∀ d, u.first? v = some d → ¬ d.FoldsTo functions u.constants c

section

variable {m : Model} {bindings : Table String Datum} {functions : FunctionTable α} {u : Unrolled α}
  {v : Identity} {c : Number α}

/-- A constant is a value of the data, or a definition folds to it. -/
theorem constant_cases (h : make m bindings functions = .ok u)
    (hc : u.constants.get? v = some c) :
    (∃ x, u.data.values.get? v = some x ∧ c = x.map Scalar.ofDouble) ∨
      u.data.values.get? v = none ∧
        ∃ d ∈ u.definitions, d.target = v ∧ d.FoldsTo functions u.constants c := by
  obtain ⟨-, -, hconstants, -, -⟩ := make_eq_ok_iff.mp h
  have hofData : (Folding.ofData u.data : Folding.Constants α).get? v =
      (u.data.values.get? v).map fun n => n.map Scalar.ofDouble := Table.get?_map _ _ _
  cases hv : u.data.values.get? v with
  | some x =>
    rw [hv, Option.map_some] at hofData
    have hsame := Folding.ofData_le hconstants v _ hofData
    rw [hc, Option.some.injEq] at hsame
    exact Or.inl ⟨x, rfl, hsame⟩
  | none =>
    rw [hv, Option.map_none] at hofData
    rcases Folding.constants_cases hconstants hc with hdata | ⟨site, hsite, hsupports⟩
    · rw [hofData] at hdata
      cases hdata
    · exact Or.inr ⟨rfl, definition_of_supports h hsite hsupports⟩

/-- A disputed constant comes from a definition that is ignored, because another definition of the
identity stands before it. -/
theorem Disputed.ignored (h : make m bindings functions = .ok u)
    (hv : u.Disputed functions v c) :
    ∃ first later, u.first? v = some first ∧ later ∈ u.definitions ∧ later.target = v ∧
      later ≠ first ∧ later.FoldsTo functions u.constants c := by
  rcases constant_cases h hv.constant with ⟨x, hx, -⟩ | ⟨-, later, hlater, htarget, hfolds⟩
  · rw [hv.not_data] at hx
    cases hx
  · obtain ⟨first, hfirst⟩ : ∃ first, u.first? v = some first := by
      rw [← Option.isSome_iff_exists]
      unfold first?
      rw [List.find?_isSome]
      exact ⟨later, hlater, by simpa using htarget⟩
    refine ⟨first, later, hfirst, hlater, htarget, ?_, hfolds⟩
    rintro rfl
    exact hv.not_first _ hfirst hfolds

end

/-- The functions that constants are folded with and those of the density compute the same: where
the references of a definition have the values of the constants, the value of its expression is the
constant to which it folds. -/
def TablesAgree (u : Unrolled α) (r : Registry α) (calls : CallMode) : Prop :=
  ∀ d ∈ u.definitions, ∀ e c, d.meaning = .expr e → d.FoldsTo r.foldingFunctions u.constants c →
    ∀ V : Graph.Valuation α,
      (∀ ref ∈ d.refs, ∀ k, u.constants.get? ref = some k → ∃ x, V ref = some x ∧ x.Agrees k) →
      ∀ x, e.eval (V.environment r calls) = .ok x → x.Agrees c

end Unrolled

namespace Graph

/-- The node of an identity is no parameter, and its value agrees with a constant. -/
def Conforms (g : Graph) (slots : Slots α) (v : Identity) (c : Number α) : Prop :=
  ∀ n ∈ g.nodes, n.id = v →
    n.role.isParameter = false ∧ ∃ x, g.valuation slots v = some x ∧ x.Agrees c

section

variable {m : Model} {bindings : Table String Datum} {r : Registry α} {g : Graph} {u : Unrolled α}

/-- If the disputed constants conform to an evaluation, all constants do. -/
theorem conforms_of_disputed (hu : Unrolled.make m bindings r.foldingFunctions = .ok u)
    (hg : ofUnrolled u r = .ok g) {mode : EvaluationMode} (hsame : u.TablesAgree r mode.calls)
    {theta : List α} {ev : Evaluation α} (hev : g.evaluate r mode theta = .ok ev)
    (hdisputed : ∀ v c, u.Disputed r.foldingFunctions v c → g.Conforms ev.slots v c) {v : Identity}
    {c : Number α} (hc : u.constants.get? v = some c) : g.Conforms ev.slots v c := by
  have hwf := wellFormed_ofUnrolled (fun d hd => Unrolled.refs_of_make hu hd) hg
  have hsolves := (Accounts.of_evaluate hwf hev).solves
  rintro n hn rfl
  refine hwf.node_induction (P := fun n => ∀ c, u.constants.get? n.id = some c →
    n.role.isParameter = false ∧ ∃ x, g.valuation ev.slots n.id = some x ∧ x.Agrees c)
    (fun n hn refs hrefs ih c hc => ?_) n hn c hc
  have hequation := hsolves.equations n hn
  rcases Unrolled.constant_cases hu hc with ⟨x, hx, rfl⟩ | ⟨hnone, -⟩
  · -- the node is observed, whatever defines it
    obtain ⟨dist, hrole⟩ := role_of_data hg hn hx
    unfold NodeEquation at hequation
    rw [hrole] at hequation
    exact ⟨by rw [hrole]; rfl, _, hequation, Or.inl rfl⟩
  · by_cases hfirst : ∃ d, u.first? n.id = some d ∧ d.FoldsTo r.foldingFunctions u.constants c
    · obtain ⟨d, hd, hfolds⟩ := hfirst
      have hmem := List.mem_of_find?_eq_some hd
      obtain ⟨e, -, hmeaning, -⟩ := id hfolds
      have hrole := role_of_first hg hn hnone hd
      rw [hmeaning] at hrole
      unfold NodeEquation at hequation
      rw [hrole] at hequation
      obtain ⟨x, hx, hxn⟩ := hequation
      have hown : Expr.refsOfAll n.role.parts = .ok d.refs := by
        have := Unrolled.refs_of_make hu hmem
        rw [hrole]
        rwa [hmeaning] at this
      refine ⟨by rw [hrole]; rfl, x, hxn, ?_⟩
      refine hsame d hmem e c hmeaning hfolds _ (fun ref href k hk => ?_) x hx
      obtain ⟨p, hp, rfl⟩ := hwf.node_of_ref hn hown href
      rw [hown, Except.ok.injEq] at hrefs
      exact (ih p hp (hrefs ▸ href) k hk).2
    · exact hdisputed n.id c ⟨hc, hnone, fun d hd hfolds => hfirst ⟨d, hd, hfolds⟩⟩ n hn rfl

/-- The node of a constant that is not in the data is a parameter exactly if the definition that
counts is stochastic. Then the constant is disputed. -/
theorem isParameter_of_disputed (hg : ofUnrolled u r = .ok g) {v : Identity} {c : Number α}
    (hv : u.Disputed r.foldingFunctions v c) {first : Definition} (hfirst : u.first? v = some first)
    (hstochastic : first.meaning.isStochastic = true) :
    ∃ n ∈ g.nodes, n.id = v ∧ n.role.isParameter = true := by
  have htarget : first.target = v := by simpa using List.find?_some hfirst
  obtain ⟨n, hn, hid⟩ := node_of_definition hg (List.mem_of_find?_eq_some hfirst)
  rw [htarget] at hid
  refine ⟨n, hn, hid, ?_⟩
  have hrole := role_of_first hg hn (hid ▸ hv.not_data) (hid ▸ hfirst)
  rw [hrole]
  cases hmeaning : first.meaning with
  | dist law => rfl
  | expr e =>
    rw [hmeaning] at hstochastic
    cases hstochastic

/-- In an evaluation of a graph that a build returned, all constants have their values exactly if
the disputed ones do. Every disputed constant comes from a definition that is ignored in favor of
another one, and is a parameter if that one is stochastic. -/
theorem constants_conform_iff (hbuild : (build m bindings r).collect.1 = .ok g)
    (hu : Unrolled.make m bindings r.foldingFunctions = .ok u) {mode : EvaluationMode}
    (hsame : u.TablesAgree r mode.calls) {theta : List α} {ev : Evaluation α}
    (hev : g.evaluate r mode theta = .ok ev) :
    ((∀ v c, u.constants.get? v = some c → g.Conforms ev.slots v c) ↔
      ∀ v c, u.Disputed r.foldingFunctions v c → g.Conforms ev.slots v c) ∧
    ∀ v c, u.Disputed r.foldingFunctions v c →
      ∃ first later, u.first? v = some first ∧ later ∈ u.definitions ∧ later.target = v ∧
        later ≠ first ∧ later.FoldsTo r.foldingFunctions u.constants c ∧
        (first.meaning.isStochastic = true →
          ∃ n ∈ g.nodes, n.id = v ∧ n.role.isParameter = true) := by
  obtain ⟨u', hu', hg⟩ := ofUnrolled_of_build hbuild
  rw [hu, Except.ok.injEq] at hu'
  subst hu'
  refine ⟨⟨fun h v c hv => h v c hv.constant, fun h v c hc => ?_⟩, fun v c hv => ?_⟩
  · exact conforms_of_disputed hu hg hsame hev h hc
  · obtain ⟨first, later, hfirst, hlater, htarget, hne, hfolds⟩ := hv.ignored hu
    exact ⟨first, later, hfirst, hlater, htarget, hne, hfolds,
      isParameter_of_disputed hg hv hfirst⟩

end

/-! ## A constant that is a parameter -/

/-- The index of `y` is the logical variable `x`, which other statements before may define too. -/
def indexModel (before : List Stmt) : Model where
  statements := before ++
    [.assign [] (.var (.text "x")) (.literal (.int 2)),
    .sample [] (.index (.text "y") [.var (.text "x")])
      (.dist { name := .text "dnorm", params := [.literal (.int 0), .literal (.int 1)] })]

/-- The distribution of `x`, if it has one, and that of `y`. -/
def indexLaw : Dist := { name := .text "dnorm", params := [.literal (.int 0), .literal (.int 1)] }

/-- A stochastic statement about `x`. -/
def indexPrior : List Stmt := [.sample [] (.var (.text "x")) (.dist indexLaw)]

/-- The functions that constants are folded with. -/
def indexFunctions : FunctionTable Dual := (Registry.builtin : Registry Dual).foldingFunctions

/-- The unrolled model, if `before` are the definitions of the other statements. -/
def indexUnrolled (before : List Definition) : Unrolled Dual where
  definitions := before ++
    [⟨⟨"x", []⟩, .expr (.literal (.int 2)), [], "x <- 2"⟩,
    ⟨⟨"y", [2]⟩, .dist indexLaw, [], "y[x] ~ dnorm(0, 1)"⟩]
  shapes := ⟨⟨[]⟩, ⟨[("x", []), ("y", [2])]⟩⟩
  data := ⟨⟨[]⟩, ⟨[]⟩⟩
  constants := ⟨[(⟨"x", []⟩, .int 2)]⟩

/-- The model is unrolled without another statement about `x`. -/
theorem make_indexModel :
    Unrolled.make (indexModel []) ⟨[]⟩ indexFunctions = .ok (indexUnrolled []) :=
  Unrolled.make_eq_ok_iff.mpr ⟨_, rfl,
    Folding.saturate_eq_ok rfl rfl, rfl, rfl⟩

/-- It is unrolled alike if a stochastic statement comes first. -/
theorem make_indexModel_indexPrior :
    Unrolled.make (indexModel indexPrior) ⟨[]⟩ indexFunctions =
      .ok (indexUnrolled [⟨⟨"x", []⟩, .dist indexLaw, [], "x ~ dnorm(0, 1)"⟩]) :=
  Unrolled.make_eq_ok_iff.mpr ⟨_, rfl,
    Folding.saturate_eq_ok rfl rfl, rfl, rfl⟩

/-- Without the other statement all constants are values of the graph. -/
theorem constants_conform_indexModel :
    ∃ g ev, (build (indexModel []) ⟨[]⟩ (Registry.builtin : Registry Dual)).collect.1 = .ok g ∧
      g.evaluate (Registry.builtin : Registry Dual) {} [Scalar.ofInt 0] = .ok ev ∧
      ((∀ v c, (indexUnrolled []).constants.get? v = some c → g.Conforms ev.slots v c) ↔
        ∀ v c, (indexUnrolled []).Disputed indexFunctions v c → g.Conforms ev.slots v c) := by
  obtain ⟨g, hg, ev, hev⟩ : ∃ g, (build (indexModel []) ⟨[]⟩
      (Registry.builtin : Registry Dual)).collect.1 = .ok g ∧
        ∃ ev, g.evaluate (Registry.builtin : Registry Dual) {} [Scalar.ofInt 0] = .ok ev := by
    have hmake := make_indexModel
    unfold indexFunctions at hmake
    rw [build_result, hmake]
    decide +kernel
  have hsame : (indexUnrolled []).TablesAgree (Registry.builtin : Registry Dual) .direct := by
    intro d hd e c hmeaning hfolds V _ x hx
    obtain ⟨e', v, hmeaning', hv, -, hc⟩ := hfolds
    rw [hmeaning, Meaning.expr.injEq] at hmeaning'
    subst hmeaning'
    rcases List.mem_cons.mp hd with rfl | hd
    · cases hmeaning
      cases hv
      cases hx
      rw [show Value.toNumber (Datum.int 2).value = .ok (.int 2 : Number Dual) from rfl] at hc
      cases hc
      exact Or.inl rfl
    · rw [List.mem_singleton.mp hd] at hmeaning
      cases hmeaning
  exact ⟨g, ev, hg, hev, (constants_conform_iff hg make_indexModel hsame hev).1⟩

/-- With it, the index of `y` comes from a constant that is a parameter of the graph. -/
theorem not_conforms_indexModel :
    ∃ g, (build (indexModel indexPrior) ⟨[]⟩ (Registry.builtin : Registry Dual)).collect.1 =
        .ok g ∧
      ∃ u, Unrolled.make (indexModel indexPrior) ⟨[]⟩ indexFunctions = .ok u ∧
        u.constants.get? ⟨"x", []⟩ = some (.int 2) ∧ ⟨"y", [2]⟩ ∈ u.definitions.map (·.target) ∧
        ∃ n ∈ g.nodes, n.id = ⟨"x", []⟩ ∧ n.role.isParameter = true := by
  have hmake := make_indexModel_indexPrior
  have hbuilds : ((build (indexModel indexPrior) ⟨[]⟩
      (Registry.builtin : Registry Dual)).collect.1.toOption).isSome = true := by
    unfold indexFunctions at hmake
    rw [build_result, hmake]
    decide +kernel
  obtain ⟨g, hg⟩ := Option.isSome_iff_exists.mp hbuilds
  rw [toOption_eq_some] at hg
  obtain ⟨u, hu, hunrolled⟩ := ofUnrolled_of_build hg
  refine ⟨g, hg, _, hmake, rfl, by decide, ?_⟩
  rw [show Registry.foldingFunctions _ = indexFunctions from rfl, hmake, Except.ok.injEq] at hu
  subst hu
  obtain ⟨n, hn, hid⟩ := node_of_definition hunrolled List.mem_cons_self
  refine ⟨n, hn, hid, ?_⟩
  rw [role_of_first hunrolled hn (by rw [hid]; rfl) (by rw [hid]; rfl)]
  rfl

end Graph

end BayesGraph
