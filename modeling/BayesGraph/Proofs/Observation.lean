import BayesGraph.Proofs.Declarative
import BayesGraph.Proofs.NamedValues
import BayesGraph.Proofs.ObservedRuns

/-!
# Observing is fixing

Let the data of a model be extended by values for some of the parameters, and let the model be built
with both data. The second graph observes these parameters and keeps the others in their order. In
exact arithmetic, the density of the first graph at coordinates that have the new values is the
density of the second graph at the remaining coordinates (`logDensity_observe`).

A value in the data can be an integer, while a coordinate is a computed real. Over the extended
reals this makes no difference, as long as the arithmetic of words does not wrap around and
functions do not tell the two apart (`RunsExactly`). The built-in functions do not
(`Registry.exact_builtin`).
-/

set_option autoImplicit false

namespace BayesGraph.Graph

open Outcome

variable {α : Type} {g g' : Graph} {data : Bindings} {ids : List Identity}

/-- The coordinates of the parameters that are not among some identities. -/
def remaining (g : Graph) (ids : List Identity) (theta : List α) : List α :=
  ((g.parameterNames.zip theta).filter fun e => !ids.contains e.1).map (·.2)

/-! ## Remaining coordinates -/

/-- A member that is kept is found among the members that are kept, beside the same partner. -/
theorem getElem?_of_idxOf?_filter {names : List Identity} {is : List Nat} {keep : Nat → Bool}
    (h : List.Forall₂ (fun i name => keep i = !ids.contains name) is names) {i : Nat}
    (hi : keep i = true) (theta : List α) :
    ((is.filter keep).idxOf? i).bind
        (fun k => (((names.zip theta).filter fun e => !ids.contains e.1).map (·.2))[k]?) =
      (is.idxOf? i).bind fun k => theta[k]? := by
  induction h generalizing theta with
  | nil => rfl
  | @cons j name is names hj _ ih =>
    cases theta with
    | nil => simp
    | cons y theta =>
      have hih := ih theta
      rw [List.zip_cons_cons, List.filter_cons, List.filter_cons, ← hj]
      cases hkeep : keep j with
      | true =>
        rw [if_pos rfl, if_pos rfl, List.idxOf?_cons, List.idxOf?_cons]
        cases hji : j == i with
        | true => rfl
        | false =>
          simp only [Bool.false_eq_true, if_false, Option.bind_map]
          exact hih
      | false =>
        -- A dropped coordinate is not the one looked for.
        have hji : (j == i) = false := by
          rw [beq_eq_false_iff_ne]
          rintro rfl
          rw [hi] at hkeep
          cases hkeep
        rw [if_neg Bool.false_ne_true, if_neg Bool.false_ne_true, List.idxOf?_cons, hji, hih]
        simp only [Bool.false_eq_true, if_false, Option.bind_map]
        rfl

/-- A node is a parameter after it has been observed if it was one and has no value. -/
theorem isParameter_observe (data : Bindings) (n : Node) : (n.observe data).role.isParameter =
    (n.role.isParameter && (data.values.get? n.id).isNone) := by
  rcases Node.observe_cases data n with ⟨law, v, hrole, hv, h⟩ | ⟨hnone, h⟩
  · rw [h, hv]
    simp [Role.isParameter]
  · rw [h]
    cases hparameter : n.role.isParameter with
    | true => rw [hnone hparameter]; rfl
    | false => rfl

/-- The numbers in the second data for parameters of a graph are those of some identities. -/
def Supplies (data : Bindings) (g : Graph) (ids : List Identity) : Prop :=
  ∀ n ∈ g.nodes, n.role.isParameter = true →
    (data.values.get? n.id).isNone = !ids.contains n.id

namespace Observes

variable (h : Observes data g g') (hg : g.WellFormed) (hg' : g'.WellFormed)
  (hids : Supplies data g ids)

include h in
/-- The nodes have the same identities in both graphs. -/
theorem identities_eq (is : List Nat) : g'.identities is = g.identities is := by
  unfold identities
  refine List.filterMap_congr fun i _ => ?_
  rw [h.getElem?_eq, Option.map_map]
  exact congrArg (Option.map · g.nodes[i]?) (funext fun n => Node.observe_id data n)

include h hg hg' in
/-- The parameters without a value stay parameters. -/
theorem parameters_eq : g'.parameters =
    g.parameters.filter fun i => (g.nodes[i]?).any fun n => (data.values.get? n.id).isNone := by
  rw [hg'.parameters, hg.parameters, h.order, List.filter_filter]
  refine List.filter_congr fun i _ => ?_
  rw [h.getElem?_eq]
  cases g.nodes[i]? with
  | none => rfl
  | some n =>
    simp only [Option.map_some, Option.any_some, isParameter_observe, Bool.and_comm]

include hg hids in
/-- A parameter stays if it is not among the identities. -/
theorem forall₂_kept : List.Forall₂ (fun i id =>
      (g.nodes[i]?).any (fun n => (data.values.get? n.id).isNone) = !ids.contains id)
    g.parameters g.parameterNames := by
  refine hg.forall₂_parameters.imp ?_
  rintro i id ⟨n, hn, hparameter, rfl⟩
  rw [hn, Option.any_some]
  exact hids n (List.mem_of_getElem? hn) hparameter

include h hg hg' hids

/-- The names of the parameters that stay. -/
theorem parameterNames_eq :
    g'.parameterNames = g.parameterNames.filter fun id => !ids.contains id := by
  unfold parameterNames
  rw [h.identities_eq, parameters_eq h hg hg']
  unfold identities
  rw [List.filterMap_filter, List.filter_filterMap]
  refine List.filterMap_congr fun i hi => ?_
  obtain ⟨_, -, n, hn, hparameter, -⟩ := exists_of_forall₂ hg.forall₂_parameters hi
  rw [hn, Option.any_some, hids n (List.mem_of_getElem? hn) hparameter]
  rfl

/-- There is one remaining coordinate for each parameter that stays. -/
theorem length_remaining {theta : List α} (htheta : theta.length = g.dimension) :
    (g.remaining ids theta).length = g'.dimension := by
  have hnames : theta.length = g.parameterNames.length :=
    htheta.trans hg.forall₂_parameters.length_eq
  have hfst : (g.parameterNames.zip theta).map Prod.fst = g.parameterNames :=
    List.map_fst_zip (Nat.le_of_eq hnames.symm)
  have hdimension : g'.dimension = g'.parameterNames.length := hg'.forall₂_parameters.length_eq
  rw [hdimension, parameterNames_eq h hg hg' hids]
  conv_rhs => rw [← hfst, List.filter_map, List.length_map]
  exact List.length_map _

/-- A parameter that stays has its coordinate among the remaining ones. -/
theorem coordinate?_remaining {i : Nat} {n : Node} (hn : g.nodes[i]? = some n)
    (hnone : data.values.get? n.id = none) (theta : List α) :
    g'.coordinate? (g.remaining ids theta) i = g.coordinate? theta i := by
  unfold coordinate? remaining
  rw [parameters_eq h hg hg']
  refine getElem?_of_idxOf?_filter (forall₂_kept hg hids) ?_ theta
  rw [hn, Option.any_some, hnone]
  rfl

end Observes

/-! ## The main theorem -/

section Extension

variable {β : Type} [Scalar β] {m : Model} {bindings bindings' : Table String Datum}
  {r₀ : Registry β}

omit [Scalar β] in
/-- The identities of parameters are targets of stochastic definitions. -/
theorem exists_stochastic_of_parameter {u : Unrolled β} (hu : ofUnrolled u r₀ = .ok g)
    (hg : g.WellFormed) {id : Identity} (hid : id ∈ g.parameterNames) :
    ∃ d ∈ u.definitions, d.target = id ∧ d.meaning.isStochastic = true := by
  obtain ⟨i, -, n, hn, hparameter, rfl⟩ := exists_of_forall₂ hg.forall₂_parameters.flip hid
  rcases definition_of_node hu (List.mem_of_getElem? hn) with ⟨d, hd, hrole⟩ | ⟨v, -, hrole⟩
  · refine ⟨d, List.mem_of_find?_eq_some hd, by simpa using List.find?_some hd, ?_⟩
    cases hmeaning : d.meaning with
    | dist law => rfl
    | expr e =>
      unfold roleIn at hrole
      rw [hmeaning] at hrole
      cases hv : u.data.values.get? d.target with
      | some v =>
        rw [hrole, hv] at hparameter
        cases hparameter
      | none =>
        rw [hrole, hv] at hparameter
        cases hparameter
  · rw [hrole] at hparameter
    cases hparameter

/-- If data is extended by values for some parameters, the graph that is built with it is the graph
that is built without, with these parameters observed. -/
theorem observes_of_build (hg : (build m bindings r₀).collect.1 = .ok g)
    (hg' : (build m bindings' r₀).collect.1 = .ok g')
    (honce : m.DefinesOnce bindings r₀.foldingFunctions)
    (honce' : m.DefinesOnce bindings' r₀.foldingFunctions)
    (hextends : Bindings.Extends bindings bindings' ids)
    (hids : ∀ id ∈ ids, id ∈ g.parameterNames) :
    ∃ data, Observes data g g' ∧ Supplies data g ids ∧
      ∀ id, data.values.get? id = Bindings.given bindings' id := by
  obtain ⟨u, hu, hofUnrolled⟩ := ofUnrolled_of_build hg
  obtain ⟨u', hu', hofUnrolled'⟩ := ofUnrolled_of_build hg'
  have hwf := wellFormed_of_build hg
  have hstochastic := fun id hid =>
    exists_stochastic_of_parameter hofUnrolled hwf (hids id hid)
  obtain ⟨hgrows, hsame⟩ := Unrolled.definitions_grow hu hu' hextends (honce u hu) (honce' u' hu')
    hstochastic
  obtain ⟨-, hdata, -⟩ := Unrolled.make_eq_ok_iff.mp hu
  obtain ⟨-, hdata', -⟩ := Unrolled.make_eq_ok_iff.mp hu'
  have hvalues := (Bindings.flatten_eq_ok hextends.keys hdata).1
  have hvalues' := (Bindings.flatten_eq_ok hextends.keys' hdata').1
  refine ⟨u'.data, observes_ofUnrolled hofUnrolled hofUnrolled' hgrows hsame (honce u hu)
    hstochastic fun id hid => (hvalues id).trans (hextends.missing id hid), ?_, hvalues'⟩
  intro n hn hparameter
  by_cases hid : n.id ∈ ids
  · obtain ⟨v, hv⟩ := Option.isSome_iff_exists.mp (hextends.supplied n.id hid)
    rw [hvalues', hv, List.contains_iff_mem.mpr hid]
    rfl
  · -- A node with data is observed, and this one is a parameter.
    have hnone : u.data.values.get? n.id = none := by
      cases hv : u.data.values.get? n.id with
      | none => rfl
      | some v =>
        obtain ⟨dist, hrole⟩ := role_of_data hofUnrolled hn hv
        rw [hrole] at hparameter
        cases hparameter
    rw [hgrows.others n.id hid, hnone]
    simpa using hid

/-- Observing is fixing. Let a model define no identity twice, and let the second data extend the
first one by values for some parameters of the graph that is built with the first: for missing
entries of arrays, or for names without a value. The graph that is built with the second data has
the other parameters. At every vector with these values as coordinates, in exact arithmetic, the
density of the first graph is that of the second one at the remaining coordinates, if nothing but
domain errors are raised. The graphs may have been built over other scalars. -/
theorem logDensity_observe (hg : (build m bindings r₀).collect.1 = .ok g)
    (hg' : (build m bindings' r₀).collect.1 = .ok g')
    (honce : m.DefinesOnce bindings r₀.foldingFunctions)
    (honce' : m.DefinesOnce bindings' r₀.foldingFunctions)
    (hextends : Bindings.Extends bindings bindings' ids)
    (hids : ∀ id ∈ ids, id ∈ g.parameterNames)
    {r : Registry Extended} {calls : CallMode} {theta : List Extended}
    (hgiven : ∀ id ∈ ids, ∀ v, Bindings.given bindings' id = some v →
      g.coordinateOf theta id = some v.exact)
    (hexact : g'.RunsExactly r { transformed := false, calls } (g.remaining ids theta))
    (hdomain : ∀ e, g.evaluate r { transformed := false, calls } theta = .error e →
      e.isDomain = true)
    (hdomain' : ∀ e, g'.evaluate r { transformed := false, calls } (g.remaining ids theta) =
      .error e → e.isDomain = true) :
    g'.parameterNames = g.parameterNames.filter (fun id => !ids.contains id) ∧
      (theta.length = g.dimension → (g.remaining ids theta).length = g'.dimension) ∧
      ∀ t, (g.logDensity r false calls theta).collect.1 = .ok t ↔
        (g'.logDensity r false calls (g.remaining ids theta)).collect.1 = .ok t := by
  have hwf := wellFormed_of_build hg
  have hwf' := wellFormed_of_build hg'
  obtain ⟨data, hobserves, hsupplies, hvalues⟩ :=
    observes_of_build hg hg' honce honce' hextends hids
  refine ⟨hobserves.parameterNames_eq hwf hwf' hsupplies,
    hobserves.length_remaining hwf hwf' hsupplies, fun t => ?_⟩
  refine logDensity_of_observes hobserves ⟨fun i n v hn hparameter hv => ?_,
    fun i n hn _ hnone => hobserves.coordinate?_remaining hwf hwf' hsupplies hn hnone theta⟩
    hexact hdomain hdomain' t
  have hid : n.id ∈ ids := by
    have hcontains := hsupplies n (List.mem_of_getElem? hn) hparameter
    rw [hv] at hcontains
    simpa using hcontains
  rw [← (hwf.at_node theta Slots.empty hn).1]
  exact hgiven n.id hid v ((hvalues n.id).symm.trans hv)

end Extension

/-! ## A partially observed array -/

/-- A normal distribution with a known variance. -/
def chainLaw (mean : Expr) : Dist where
  name := .text "dnorm"
  params := [mean, .literal (.int 1)]

/-- An array of three variables, each with the one before it in its mean. -/
def chainModel : Model where
  statements :=
    [.sample [] (.index (.text "x") [.literal (.int 1)]) (.dist (chainLaw (.literal (.int 0)))),
    .sample [] (.index (.text "x") [.literal (.int 2)])
      (.dist (chainLaw (.add (.call (.text "abs") [.index (.text "x") [.literal (.int 1)]])
        (.literal (.int 1))))),
    .sample [] (.index (.text "x") [.literal (.int 3)])
      (.dist (chainLaw (.index (.text "x") [.literal (.int 2)])))]

/-- The last entry has a value, and the first one, too, if there is one. -/
def chainData (first : Datum) : Table String Datum :=
  ⟨[("x", .list [first, .nothing, .int 3])]⟩

/-- The values by identity. -/
def chainBindings (first : Option Int) : Bindings where
  values := ⟨(first.toList.map fun n => (⟨"x", [1]⟩, .int n)) ++ [(⟨"x", [3]⟩, .int 3)]⟩
  shapes := ⟨[("x", [3])]⟩

/-- The graph of the model with some role of the first entry. -/
def chainGraph (first : Role) (parameters : List Nat) : Graph where
  nodes :=
    [{ id := ⟨"x", [1]⟩
       role := first
       statement := some "x[1] ~ dnorm(0, 1)" },
    { id := ⟨"x", [2]⟩
      role := .parameter
        (chainLaw (.add (.call (.text "abs") [.ref ⟨"x", [1]⟩]) (.literal (.int 1))))
      parents := [0]
      statement := some "x[2] ~ dnorm(abs(x[1]) + 1, 1)" },
    { id := ⟨"x", [3]⟩
      role := .observed (.int 3) (some (chainLaw (.ref ⟨"x", [2]⟩)))
      parents := [1]
      statement := some "x[3] ~ dnorm(x[2], 1)" }]
  order := [0, 1, 2]
  parameters := parameters

/-- The first entry is a parameter. -/
def openChain : Graph := chainGraph (.parameter (chainLaw (.literal (.int 0)))) [0, 1]

/-- The first entry is observed. -/
def closedChain : Graph :=
  chainGraph (.observed (.int 2) (some (chainLaw (.literal (.int 0))))) [1]

/-- The third entry is the only constant if the first one is not observed. -/
theorem constants_openChain :
    Folding.constants (Registry.builtin : Registry Dual).foldingFunctions chainModel.statements
      (chainBindings none) = .ok ⟨[(⟨"x", [3]⟩, .int 3)]⟩ :=
  Folding.saturate_eq_ok rfl rfl

/-- The two observed entries are the only constants. -/
theorem constants_closedChain :
    Folding.constants (Registry.builtin : Registry Dual).foldingFunctions chainModel.statements
      (chainBindings (some 2)) = .ok ⟨[(⟨"x", [1]⟩, .int 2), (⟨"x", [3]⟩, .int 3)]⟩ :=
  Folding.saturate_eq_ok rfl rfl

/-- Without a value for the first entry, the model is built as the open chain. -/
theorem build_openChain : (build chainModel (chainData .nothing)
    (Registry.builtin : Registry Dual)).collect.1 = .ok openChain := by
  have hdata : Bindings.flatten (chainData .nothing) = .ok (chainBindings none) := rfl
  rw [build_of_constants hdata constants_openChain]
  with_unfolding_all rfl

/-- With a value for the first entry, the model is built as the closed chain. -/
theorem build_closedChain : (build chainModel (chainData (.int 2))
    (Registry.builtin : Registry Dual)).collect.1 = .ok closedChain := by
  have hdata : Bindings.flatten (chainData (.int 2)) = .ok (chainBindings (some 2)) := rfl
  rw [build_of_constants hdata constants_closedChain]
  with_unfolding_all rfl

/-- Without a value for the first entry, nothing is defined twice. -/
theorem definesOnce_openChain : chainModel.DefinesOnce (chainData .nothing)
    (Registry.builtin : Registry Dual).foldingFunctions := by
  have hdata : Bindings.flatten (chainData .nothing) = .ok (chainBindings none) := rfl
  refine Model.definesOnce_of_all ?_
  rw [Unrolled.make_of_constants hdata constants_openChain]
  decide +kernel

/-- With a value for the first entry, nothing is defined twice. -/
theorem definesOnce_closedChain : chainModel.DefinesOnce (chainData (.int 2))
    (Registry.builtin : Registry Dual).foldingFunctions := by
  have hdata : Bindings.flatten (chainData (.int 2)) = .ok (chainBindings (some 2)) := rfl
  refine Model.definesOnce_of_all ?_
  rw [Unrolled.make_of_constants hdata constants_closedChain]
  decide +kernel

/-- The value 2 for the first entry is all that is added. -/
theorem extends_chainData :
    Bindings.Extends (chainData .nothing) (chainData (.int 2)) [⟨"x", [1]⟩] where
  keys := by decide
  keys' := by decide
  shapes name d hd := by
    unfold chainData at hd ⊢
    by_cases hname : "x" = name
    · subst hname
      cases hd
      exact ⟨_, rfl, rfl⟩
    · simp [Table.get?, hname] at hd
  scalars name d hnone hd := by
    unfold chainData at hnone hd
    by_cases hname : "x" = name
    · subst hname
      cases hnone
    · simp [Table.get?, hname] at hd
  missing id hid := by
    rw [List.mem_singleton.mp hid]
    rfl
  supplied id hid := by
    rw [List.mem_singleton.mp hid]
    rfl
  others := by
    rintro ⟨name, indices⟩ hid
    unfold Bindings.given chainData
    by_cases hname : "x" = name
    · subst hname
      match indices with
      | [] => rfl
      | i :: is =>
        change Datum.number? (.list [.int 2, .nothing, .int 3]) (i :: is) =
          Datum.number? (.list [.nothing, .nothing, .int 3]) (i :: is)
        unfold Datum.number? Datum.at?
        split
        · cases hplace : (i - 1).toNat with
          | zero =>
            -- below the first entry there is nothing in either list
            obtain rfl : i = 1 := by omega
            cases is with
            | nil => exact absurd (List.mem_singleton_self _) hid
            | cons j is => rfl
          | succ k => rfl
        · rfl
    · simp [Table.get?, hname]

/-- The distribution of an entry is exact if its mean is. -/
theorem isExact_chainLaw {env : Environment Extended} {mean : Expr} (h : mean.IsExact env) :
    ∀ e ∈ (chainLaw mean).parts, e.IsExact env := by
  intro e he
  have hparts : (chainLaw mean).parts = [mean, .literal (.int 1)] := rfl
  rw [hparts, List.mem_cons, List.mem_singleton] at he
  rcases he with rfl | rfl
  · exact h
  · trivial

/-- The mean of the second entry is computed exactly. -/
theorem runsExactly_closedChain : closedChain.RunsExactly (Registry.builtin : Registry Extended)
    { transformed := false } [Scalar.ofInt 5] := by
  rintro front i rest ev n horder hfront hn
  match i with
  | 0 =>
    cases hn
    exact isExact_chainLaw trivial
  | 1 =>
    cases hn
    obtain rfl : front = [0] := by
      have horder' : [0, 1, 2] = front ++ 1 :: rest := horder
      rcases front with _ | ⟨a, _ | ⟨b, _ | ⟨c, front⟩⟩⟩ <;> simp_all
    cases hfront
    refine isExact_chainLaw ⟨Expr.isExact_call_builtin ⟨trivial, trivial⟩ fun xs hxs => ?_,
      trivial, fun x y hx hy => ?_⟩
    · -- the first entry is the integer 2
      obtain rfl : [Value.int 2] = xs := Except.ok.inj hxs
      refine ⟨fun w hw => ?_, List.pairwise_singleton _ _⟩
      rw [List.mem_singleton.mp hw]
      exact ⟨Value.isSigned_number _, fun n hn => by cases hn; decide⟩
    · obtain rfl : Value.word .density (.signed 2) = x := Except.ok.inj hx
      obtain rfl : Value.int 1 = y := Except.ok.inj hy
      rintro _ _ _ ⟨⟩ ⟨⟩
      rfl
  | 2 =>
    cases hn
    exact isExact_chainLaw trivial
  | i + 3 => cases hn

/-- Both graphs are built. At 2 and 5 the density of the first one is that of the second one at 5,
and it is defined. -/
theorem logDensity_chainModel :
    (build chainModel (chainData .nothing) (Registry.builtin : Registry Dual)).collect.1 =
        .ok openChain ∧
      (build chainModel (chainData (.int 2)) (Registry.builtin : Registry Dual)).collect.1 =
        .ok closedChain ∧
      closedChain.parameterNames = [⟨"x", [2]⟩] ∧
      ∃ t, (openChain.logDensity (Registry.builtin : Registry Extended) false .direct
          [Scalar.ofInt 2, Scalar.ofInt 5]).collect.1 = .ok t ∧
        (closedChain.logDensity (Registry.builtin : Registry Extended) false .direct
          [Scalar.ofInt 5]).collect.1 = .ok t := by
  have hids : ∀ id ∈ [(⟨"x", [1]⟩ : Identity)], id ∈ openChain.parameterNames := by
    intro id hid
    rw [List.mem_singleton.mp hid]
    exact List.mem_cons_self
  have hgiven : ∀ id ∈ [(⟨"x", [1]⟩ : Identity)], ∀ v,
      Bindings.given (chainData (.int 2)) id = some v →
      openChain.coordinateOf [Scalar.ofInt 2, Scalar.ofInt 5] id = some v.exact := by
    intro id hid v hv
    obtain rfl := List.mem_singleton.mp hid
    cases hv
    rfl
  obtain ⟨ev, hev⟩ : ∃ ev, openChain.evaluate (Registry.builtin : Registry Extended)
      { transformed := false } [Scalar.ofInt 2, Scalar.ofInt 5] = .ok ev := ⟨_, rfl⟩
  obtain ⟨ev', hev'⟩ : ∃ ev', closedChain.evaluate (Registry.builtin : Registry Extended)
      { transformed := false } [Scalar.ofInt 5] = .ok ev' := ⟨_, rfl⟩
  obtain ⟨hnames, -, hdensity⟩ := logDensity_observe build_openChain build_closedChain
    definesOnce_openChain definesOnce_closedChain extends_chainData hids hgiven
    runsExactly_closedChain (fun e he => by cases hev.symm.trans he)
    fun e he => by cases hev'.symm.trans he
  obtain ⟨t, ht⟩ : ∃ t, (openChain.logDensity (Registry.builtin : Registry Extended) false .direct
      [Scalar.ofInt 2, Scalar.ofInt 5]).collect.1 = .ok t := ⟨_, rfl⟩
  exact ⟨build_openChain, build_closedChain, hnames, t, ht, (hdensity t).mp ht⟩

end BayesGraph.Graph
