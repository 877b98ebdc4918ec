import BayesGraph.Dual
import BayesGraph.Proofs.DataEntries
import BayesGraph.Proofs.Solution

/-!
# The part that each statement has in a graph

Which nodes a graph has, and which parts they have in the density, is decided by the instances of
statements and by the data: the first instance for an identity counts, and the data decides for each
entry whether it is observed. Constants that follow from the data decide nothing. What is left out
is reported.
-/

set_option autoImplicit false

namespace BayesGraph.Graph

open Outcome

/-- The first definition of an identity. -/
abbrev firstOf (ds : List Definition) (id : Identity) : Option Definition :=
  ds.find? fun e => decide (e.target = id)

/-- Each further definition of an identity, with the first one. The definitions `before` come before
the others. -/
def repetitions (before : List Definition) : List Definition → List (Definition × Definition)
  | [] => []
  | d :: rest =>
    ((firstOf before d.target).map fun e => (d, e)).toList ++ repetitions (before ++ [d]) rest

/-- Is the definition logical, and is there a number for its identity in the data? -/
def isIgnored (bindings : Table String Datum) (d : Definition) : Bool :=
  !d.meaning.isStochastic && (Bindings.given bindings d.target).isSome

/-- The role of an identity with this meaning, and perhaps with a number in the data. -/
def roleFor : Meaning → Option (Number Double) → Role
  | .dist law, some v => .observed v (some law)
  | .dist law, none => .parameter law
  | .expr _, some v => .observed v none
  | .expr e, none => .logical e

/-- The nodes, the dimension and the warnings of the graph are those that the definitions and the
data ask for. -/
structure Classified (bindings : Table String Datum) (ds : List Definition) (g : Graph) : Prop where
  /-- Nodes with a statement stand for the identities that are defined. -/
  statements : (g.nodes.filter (·.statement.isSome)).map (·.id) = distinct (ds.map (·.target))
  /-- The first definition and the data, entry by entry, decide on the role of such a node. -/
  definition : ∀ n ∈ g.nodes, n.statement.isSome = true → ∃ d, firstOf ds n.id = some d ∧
    n.statement = some d.source ∧ n.role = roleFor d.meaning (Bindings.given bindings n.id)
  /-- Other nodes are data to which a definition refers that is not ignored. -/
  leaf : ∀ n ∈ g.nodes, n.statement = none → n.id ∉ ds.map (·.target) ∧
    (∃ v, Bindings.given bindings n.id = some v ∧ n.role = .observed v none) ∧
    ∃ id d, firstOf ds id = some d ∧ isIgnored bindings d = false ∧ n.id ∈ d.refs
  /-- Everything to which such a definition refers has a node. -/
  referenced : ∀ id d, firstOf ds id = some d → isIgnored bindings d = false →
    ∀ ref ∈ d.refs, ∃ n ∈ g.nodes, n.id = ref
  dimension : g.dimension = (distinct (ds.map (·.target))).countP fun id =>
    (firstOf ds id).any (·.meaning.isStochastic) && (Bindings.given bindings id).isNone
  /-- There is one warning for each repetition, and one for each definition that is ignored. -/
  warnings : g.warnings = (repetitions [] ds).map (fun p => duplicateMessage p.1 p.2) ++
    (((distinct (ds.map (·.target))).filterMap (firstOf ds)).filter (isIgnored bindings)).map
      overriddenMessage
  /-- Every definition is the first one of its identity or a repetition. -/
  repeated : (repetitions [] ds).length + (distinct (ds.map (·.target))).length = ds.length

/-! ## Definitions and repetitions -/

/-- A further member is distinct from the others if it is not among them. -/
theorem distinct_append_singleton {κ : Type} [DecidableEq κ] (xs : List κ) (x : κ) :
    distinct (xs ++ [x]) = if x ∈ xs then distinct xs else distinct xs ++ [x] := by
  induction xs with
  | nil => rfl
  | cons y xs ih =>
    rw [List.cons_append, distinct, ih]
    by_cases hxy : x = y
    · subst hxy
      by_cases hx : x ∈ xs
      · simp [hx, distinct]
      · simp [hx, distinct]
    · by_cases hx : x ∈ xs
      · simp [hx, distinct]
      · simp [hx, hxy, distinct]

/-- First definitions stand in the order in which their identities occur first. -/
theorem targets_firstDefinitions (ds : List Definition) :
    (firstDefinitions ds).1.map (·.target) = distinct (ds.map (·.target)) := by
  induction ds using List.reverseRecOn with
  | nil => rfl
  | append_singleton ds d ih =>
    rw [firstDefinitions_append, List.map_append, List.map_singleton, distinct_append_singleton,
      find?_firstDefinitions]
    cases hfirst : ds.find? fun e => decide (e.target = d.target) with
    | some e =>
      have hmem : d.target ∈ ds.map (·.target) := by
        have htarget : e.target = d.target := by simpa using List.find?_some hfirst
        exact htarget ▸ List.mem_map_of_mem (List.mem_of_find?_eq_some hfirst)
      rw [if_pos hmem]
      exact ih
    | none =>
      have hnew : d.target ∉ ds.map (·.target) := by
        intro hmem
        obtain ⟨e, he, htarget⟩ := List.mem_map.mp hmem
        have hnot := List.find?_eq_none.mp hfirst e he
        simp [htarget] at hnot
      rw [if_neg hnew, List.map_append, List.map_singleton, ih]

/-- The repetitions of a list with one more definition. -/
theorem repetitions_append (before ds : List Definition) (d : Definition) :
    repetitions before (ds ++ [d]) =
      repetitions before ds ++ ((firstOf (before ++ ds) d.target).map fun e => (d, e)).toList := by
  induction ds generalizing before with
  | nil => simp [repetitions]
  | cons e ds ih =>
    rw [List.cons_append, repetitions, ih, repetitions]
    simp

/-- There is one message for each repetition. -/
theorem messages_firstDefinitions (ds : List Definition) :
    (firstDefinitions ds).2 = (repetitions [] ds).map fun p => duplicateMessage p.1 p.2 := by
  induction ds using List.reverseRecOn with
  | nil => rfl
  | append_singleton ds d ih =>
    have hstep : (firstDefinitions (ds ++ [d])).2 = (firstDefinitions ds).2 ++
        ((firstOf (firstDefinitions ds).1 d.target).map (duplicateMessage d)).toList := by
      unfold firstDefinitions firstOf
      rw [List.foldl_append, List.foldl_cons, List.foldl_nil]
      generalize List.foldl _ _ ds = state
      obtain ⟨firsts, messages⟩ := state
      dsimp only
      cases firsts.find? fun e => decide (e.target = d.target) with
      | some e => rfl
      | none => exact (List.append_nil messages).symm
    rw [hstep, firstOf, find?_firstDefinitions, repetitions_append, List.nil_append, List.map_append,
      ih]
    cases hfirst : firstOf ds d.target with
    | some e => simp [hfirst]
    | none => simp [hfirst]

/-- Every definition is a repetition or the first one of its target. -/
theorem length_repetitions (ds : List Definition) :
    (repetitions [] ds).length + (distinct (ds.map (·.target))).length = ds.length := by
  induction ds using List.reverseRecOn with
  | nil => rfl
  | append_singleton ds d ih =>
    have hmem : d.target ∈ ds.map (·.target) ↔ (firstOf ds d.target).isSome = true := by
      rw [firstOf, List.find?_isSome, List.mem_map]
      simp
    rw [repetitions_append, List.map_append, List.map_singleton, distinct_append_singleton,
      List.nil_append, List.length_append, List.length_append, List.length_singleton]
    cases hfirst : firstOf ds d.target with
    | some e =>
      rw [if_pos (hmem.mpr (by rw [hfirst]; rfl))]
      simp only [Option.map_some, Option.toList_some, List.length_singleton]
      omega
    | none =>
      rw [if_neg (fun h => by rw [hmem, hfirst] at h; cases h)]
      simp only [Option.map_none, Option.toList_none, List.length_nil, List.length_append,
        List.length_singleton]
      omega

/-- A definition that is kept is the first one of its identity. -/
theorem firstOf_of_mem {ds : List Definition} {d : Definition} (hd : d ∈ (firstDefinitions ds).1) :
    firstOf ds d.target = some d := by
  rw [firstOf, ← find?_firstDefinitions]
  exact find?_target (nodup_firstDefinitions ds) hd

/-- The first definition of an identity is one of the first definitions. -/
theorem mem_of_firstOf {ds : List Definition} {id : Identity} {d : Definition}
    (hd : firstOf ds id = some d) : d ∈ (firstDefinitions ds).1 := by
  rw [firstOf, ← find?_firstDefinitions] at hd
  exact List.mem_of_find?_eq_some hd

/-- The first definitions, one identity after the other. -/
theorem firstDefinitions_eq_filterMap (ds : List Definition) :
    (firstDefinitions ds).1 = (distinct (ds.map (·.target))).filterMap (firstOf ds) := by
  rw [← targets_firstDefinitions, List.filterMap_map]
  have hsome : ∀ d ∈ (firstDefinitions ds).1, (firstOf ds ∘ (·.target)) d = some d :=
    fun d hd => firstOf_of_mem hd
  rw [List.filterMap_congr hsome, List.filterMap_some]

/-! ## Nodes -/

variable {α : Type}

section OfUnrolled

variable {β : Type} {u : Unrolled β} {r : Registry α} {g : Graph}

/-- The warnings of a graph: repeated definitions, and definitions that the data override. -/
theorem warnings_of_ofUnrolled (h : ofUnrolled u r = .ok g) :
    g.warnings = (firstDefinitions u.definitions).2 ++
      ((firstDefinitions u.definitions).1.filter (·.isOverridden u.data)).map overriddenMessage := by
  simp only [ofUnrolled, bind_eq_ok] at h
  obtain ⟨nodes, -, links, -, hg⟩ := h
  unfold assemble at hg
  dsimp only at hg
  split at hg
  · cases hg
  · cases hg
    rfl

/-- The nodes of first definitions come first, and all others are leaves of data. -/
structure Composed (u : Unrolled β) (g : Graph) (defined leaves : List Node) : Prop where
  nodes : g.nodes = defined ++ leaves
  defined : List.Forall₂ (fun d n => n.id = d.target ∧ n.role = roleIn u.data d ∧
    n.statement = some d.source) (firstDefinitions u.definitions).1 defined
  leaves : ∀ n ∈ leaves, n.statement = none ∧ n.id ∉ u.definitions.map (·.target) ∧
    (∃ v, u.data.values.get? n.id = some v ∧ n.role = .observed v none) ∧
    ∃ d ∈ (firstDefinitions u.definitions).1, n.id ∈ d.usedRefs u.data

/-- The nodes of a graph are those of the first definitions, and the leaves. -/
theorem nodes_of_ofUnrolled (h : ofUnrolled u r = .ok g) :
    ∃ defined leaves, Composed u g defined leaves := by
  obtain ⟨nodes, links, hnodes, hlinks, hg, -, -⟩ := ofUnrolled_eq_ok h
  refine ⟨_, links.leaves, hg, ?_, ?_⟩
  · refine (forall₂_linked (mapM_eq_ok.mp hnodes) hlinks.parents).imp ?_
    rintro d n ⟨n₀, is, hn₀, -, rfl⟩
    obtain ⟨hid, hrole, hstatement⟩ := nodeOf_eq_ok hn₀
    exact ⟨hid, hrole, hstatement⟩
  · intro n hn
    obtain ⟨v, hv, hleaf⟩ := hlinks.from_data n hn
    refine ⟨by rw [hleaf]; rfl, ?_, ⟨v, hv, by rw [hleaf]; rfl⟩, hlinks.needed n hn⟩
    have hnodup := hlinks.nodup
    rw [hlinks.ids, List.nodup_append] at hnodup
    rw [← mem_targets_firstDefinitions]
    intro hmem
    exact hnodup.2.2 n.id hmem n.id (List.mem_map_of_mem hn) rfl

/-- The dimension is the count of parameters. -/
theorem WellFormed.dimension_eq (hg : g.WellFormed) :
    g.dimension = g.nodes.countP (·.role.isParameter) := by
  have hnodes : (List.range g.size).map (fun i => g.nodes[i]?) = g.nodes.map some := by
    apply List.ext_getElem?
    intro i
    by_cases hi : i < g.size
    · simp [List.getElem?_range hi, List.getElem?_eq_getElem hi]
    · have hge : g.nodes.length ≤ i := Nat.le_of_not_lt hi
      rw [List.getElem?_eq_none (by simpa [size] using hge), List.getElem?_eq_none (by simpa using hge)]
  have hlength : g.parentLists.length = g.size := List.length_map _
  have hcount := hg.order.perm.countP_eq fun i => (g.nodes[i]?).any (·.role.isParameter)
  unfold dimension
  rw [hg.parameters, ← List.countP_eq_length_filter, hcount, hlength]
  calc (List.range g.size).countP (fun i => (g.nodes[i]?).any (·.role.isParameter))
      = ((List.range g.size).map fun i => g.nodes[i]?).countP (·.any (·.role.isParameter)) := by
        rw [List.countP_map]
        rfl
    _ = (g.nodes.map some).countP (·.any (·.role.isParameter)) := by rw [hnodes]
    _ = g.nodes.countP (·.role.isParameter) := by
        rw [List.countP_map]
        rfl

/-- The role of a definition goes by its meaning and the data at its target. -/
theorem roleIn_eq (data : Bindings) (d : Definition) :
    roleIn data d = roleFor d.meaning (data.values.get? d.target) := by
  unfold roleIn roleFor
  rfl

/-- Data with the same entries takes the place of the same definitions. -/
theorem isOverridden_eq {data : Bindings} {bindings : Table String Datum}
    (hdata : ∀ id, data.values.get? id = Bindings.given bindings id) (d : Definition) :
    d.isOverridden data = isIgnored bindings d := by
  unfold Definition.isOverridden isIgnored Table.contains
  rw [hdata]

namespace Composed

variable {defined leaves : List Node}

/-- The nodes of definitions have the distinct targets as identities. -/
theorem ids (hc : Composed u g defined leaves) :
    defined.map (·.id) = distinct (u.definitions.map (·.target)) := by
  have hsame : List.Forall₂ (fun d n => d = n) (defined.map (·.id))
      ((firstDefinitions u.definitions).1.map (·.target)) := by
    rw [List.forall₂_map_left_iff, List.forall₂_map_right_iff]
    exact hc.defined.flip.imp fun _ _ h => h.1
  rw [← targets_firstDefinitions]
  exact List.forall₂_eq_eq_eq ▸ hsame

/-- The node of a definition has a statement. -/
theorem isSome_statement (hc : Composed u g defined leaves) {n : Node} (hn : n ∈ defined) :
    n.statement.isSome = true := by
  obtain ⟨d, -, -, -, hsource⟩ := exists_of_forall₂ hc.defined.flip hn
  rw [hsource]
  rfl

/-- The nodes with a statement are those of first definitions. -/
theorem mem_defined (hc : Composed u g defined leaves) {n : Node} (hn : n ∈ g.nodes)
    (hsome : n.statement.isSome = true) : n ∈ defined := by
  rw [hc.nodes, List.mem_append] at hn
  refine hn.resolve_right fun hleaf => ?_
  rw [(hc.leaves n hleaf).1] at hsome
  cases hsome

/-- A node without a statement is a leaf. -/
theorem mem_leaves (hc : Composed u g defined leaves) {n : Node} (hn : n ∈ g.nodes)
    (hnone : n.statement = none) : n ∈ leaves := by
  rw [hc.nodes, List.mem_append] at hn
  refine hn.resolve_left fun hdefined => ?_
  have hsome := hc.isSome_statement hdefined
  rw [hnone] at hsome
  cases hsome

/-- The nodes with a statement are those of definitions. -/
theorem filter_statement (hc : Composed u g defined leaves) :
    g.nodes.filter (·.statement.isSome) = defined := by
  have hself : defined.filter (·.statement.isSome) = defined :=
    List.filter_eq_self.mpr fun n hn => hc.isSome_statement hn
  have hnone : leaves.filter (·.statement.isSome) = [] := by
    apply List.filter_eq_nil_iff.mpr
    intro n hn
    rw [(hc.leaves n hn).1]
    exact Bool.false_ne_true
  rw [hc.nodes, List.filter_append, hself, hnone, List.append_nil]

section Data

variable {bindings : Table String Datum}
  (hdata : ∀ id, u.data.values.get? id = Bindings.given bindings id)

include hdata

/-- A node with a statement comes from the first definition of its identity. -/
theorem definition_of_mem (hc : Composed u g defined leaves) {n : Node} (hn : n ∈ defined) :
    ∃ d, firstOf u.definitions n.id = some d ∧ n.statement = some d.source ∧
      n.role = roleFor d.meaning (Bindings.given bindings n.id) := by
  obtain ⟨d, hd, hid, hrole, hsource⟩ := exists_of_forall₂ hc.defined.flip hn
  refine ⟨d, hid ▸ firstOf_of_mem hd, hsource, ?_⟩
  rw [hrole, roleIn_eq, hdata, hid]

/-- A leaf is data, and a definition that is not ignored refers to it. -/
theorem leaf_of_mem (hc : Composed u g defined leaves) {n : Node} (hn : n ∈ leaves) :
    n.id ∉ u.definitions.map (·.target) ∧
      (∃ v, Bindings.given bindings n.id = some v ∧ n.role = .observed v none) ∧
      ∃ id d, firstOf u.definitions id = some d ∧ isIgnored bindings d = false ∧ n.id ∈ d.refs := by
  obtain ⟨-, hnew, ⟨v, hv, hrole⟩, d, hd, hused⟩ := hc.leaves n hn
  refine ⟨hnew, ⟨v, hdata n.id ▸ hv, hrole⟩, d.target, d, firstOf_of_mem hd, ?_⟩
  unfold Definition.usedRefs at hused
  rw [isOverridden_eq hdata] at hused
  split at hused
  · cases hused
  · next hkept => exact ⟨Bool.eq_false_iff.mpr hkept, mem_distinct.mp hused⟩

/-- What a definition that is not ignored refers to has a node. -/
theorem exists_node_of_ref (hc : Composed u g defined leaves) (hwf : g.WellFormed) {id : Identity}
    {d : Definition} (hrefs : d.meaning.refs = .ok d.refs) (hd : firstOf u.definitions id = some d)
    (hkept : isIgnored bindings d = false) {ref : Identity} (href : ref ∈ d.refs) :
    ∃ n ∈ g.nodes, n.id = ref := by
  obtain ⟨n, hn, -, hrole, -⟩ := exists_of_forall₂ hc.defined (mem_of_firstOf hd)
  obtain ⟨refs, hparts, hused⟩ := @refsOfAll_roleIn u.data d hrefs
  unfold Definition.usedRefs at hused
  rw [isOverridden_eq hdata, hkept, if_neg Bool.false_ne_true] at hused
  have hmem : n ∈ g.nodes := by
    rw [hc.nodes]
    exact List.mem_append_left _ hn
  apply hwf.node_of_ref hmem (hrole ▸ hparts)
  rw [← mem_distinct, hused, mem_distinct]
  exact href

/-- The parameters are the identities whose first definition is stochastic and that are not in the
data. -/
theorem dimension_eq (hc : Composed u g defined leaves) (hwf : g.WellFormed) :
    g.dimension = (distinct (u.definitions.map (·.target))).countP fun id =>
      (firstOf u.definitions id).any (·.meaning.isStochastic) &&
        (Bindings.given bindings id).isNone := by
  have hparameter : ∀ n ∈ defined, n.role.isParameter = true ↔
      ((firstOf u.definitions n.id).any (·.meaning.isStochastic) &&
        (Bindings.given bindings n.id).isNone) = true := by
    intro n hn
    obtain ⟨d, hd, -, hrole⟩ := hc.definition_of_mem hdata hn
    rw [hrole, hd]
    cases hmeaning : d.meaning <;> cases Bindings.given bindings n.id <;>
      simp [roleFor, Role.isParameter, Meaning.isStochastic, hmeaning]
  have hnone : leaves.countP (·.role.isParameter) = 0 := by
    apply List.countP_eq_zero.mpr
    intro n hn
    obtain ⟨-, -, ⟨v, -, hrole⟩, -⟩ := hc.leaves n hn
    rw [hrole]
    exact Bool.false_ne_true
  rw [hwf.dimension_eq, hc.nodes, List.countP_append, hnone, Nat.add_zero, ← hc.ids,
    List.countP_map]
  exact List.countP_congr hparameter

end Data

end Composed

/-- The graph of an unrolled model is classified by its definitions, if they know their references,
and by data with the same entries. -/
theorem classified_ofUnrolled {bindings : Table String Datum}
    (hrefs : ∀ d ∈ u.definitions, d.meaning.refs = .ok d.refs)
    (hdata : ∀ id, u.data.values.get? id = Bindings.given bindings id)
    (h : ofUnrolled u r = .ok g) : Classified bindings u.definitions g := by
  have hwf := wellFormed_ofUnrolled hrefs h
  obtain ⟨defined, leaves, hc⟩ := nodes_of_ofUnrolled h
  exact {
    statements := by rw [hc.filter_statement, hc.ids]
    definition := fun n hn hsome => hc.definition_of_mem hdata (hc.mem_defined hn hsome)
    leaf := fun n hn hnone => hc.leaf_of_mem hdata (hc.mem_leaves hn hnone)
    referenced := fun id d hd hkept ref href =>
      hc.exists_node_of_ref hdata hwf (hrefs d (List.mem_of_find?_eq_some hd)) hd hkept href
    dimension := hc.dimension_eq hdata hwf
    warnings := by
      rw [warnings_of_ofUnrolled h, messages_firstDefinitions, ← firstDefinitions_eq_filterMap,
        List.filter_congr fun d _ => isOverridden_eq hdata d]
    repeated := length_repetitions _ }

end OfUnrolled

variable [Scalar α]

/-- The nodes, the dimension and the warnings of a built graph are those that the unrolled
definitions and the data ask for. -/
theorem classified_of_build {m : Model} {bindings : Table String Datum}
    (hkeys : bindings.keys.Nodup) {r : Registry α} {g : Graph}
    (hg : (build m bindings r).collect.1 = .ok g) :
    ∃ u, Unrolled.make m bindings r.foldingFunctions = .ok u ∧
      Classified bindings u.definitions g := by
  obtain ⟨u, hu, hofUnrolled⟩ := ofUnrolled_of_build hg
  refine ⟨u, hu, classified_ofUnrolled (fun d hd => Unrolled.refs_of_make hu hd) ?_ hofUnrolled⟩
  obtain ⟨-, hflatten, -⟩ := Unrolled.make_eq_ok_iff.mp hu
  exact (Bindings.flatten_eq_ok hkeys hflatten).1

/-- A partially observed array `y`, a second definition of `y[1]`, a logical node `z` and data
`c`. -/
def mixedModel : Model where
  statements :=
    [.sample [] (.index (.text "y") [.literal (.int 1)])
      (.dist { name := .text "dnorm", params := [.var (.text "z"), .literal (.int 1)] }),
    .sample [] (.index (.text "y") [.literal (.int 2)])
      (.dist { name := .text "dnorm", params := [.var (.text "c"), .literal (.int 1)] }),
    .assign [] (.index (.text "y") [.literal (.int 1)]) (.literal (.int 5)),
    .assign [] (.var (.text "z")) (.add (.var (.text "c")) (.literal (.int 1)))]

/-- Values of `z`, `c` and the first entry of `y`. -/
def mixedData : Table String Datum :=
  ⟨[("y", .list [.int 3, .nothing]), ("z", .int 4), ("c", .int 1)]⟩

/-- The values of the data by identity. -/
def mixedBindings : Bindings :=
  ⟨⟨[(⟨"y", [1]⟩, .int 3), (⟨"z", []⟩, .int 4), (⟨"c", []⟩, .int 1)]⟩,
    ⟨[("y", [2]), ("z", []), ("c", [])]⟩⟩

/-- The data are read as the bindings. -/
theorem flatten_mixedData : Bindings.flatten mixedData = .ok mixedBindings := rfl

/-- The data are the only constants of the model. -/
theorem constants_mixedModel :
    Folding.constants (Registry.builtin : Registry Dual).foldingFunctions mixedModel.statements
      mixedBindings = .ok (mixedBindings.values.map fun n => n.map Scalar.ofDouble) := by
  unfold Folding.constants Folding.saturate
  rfl

/-- One of the two entries of `y` is a parameter, `c` is a leaf, and there are two warnings. -/
theorem classified_mixedModel :
    ∃ u g, Unrolled.make mixedModel mixedData
        (Registry.builtin : Registry Dual).foldingFunctions = .ok u ∧
      (build mixedModel mixedData (Registry.builtin : Registry Dual)).collect.1 = .ok g ∧
      Classified mixedData u.definitions g ∧ g.dimension = 1 ∧ g.warnings.length = 2 ∧
      g.nodes.map (·.id) = [⟨"y", [1]⟩, ⟨"y", [2]⟩, ⟨"z", []⟩, ⟨"c", []⟩] := by
  obtain ⟨g, hg, hfacts⟩ : ∃ g, (build mixedModel mixedData
      (Registry.builtin : Registry Dual)).collect.1 = .ok g ∧ g.dimension = 1 ∧
        g.warnings.length = 2 ∧
        g.nodes.map (·.id) = [⟨"y", [1]⟩, ⟨"y", [2]⟩, ⟨"z", []⟩, ⟨"c", []⟩] := by
    rw [build_of_constants flatten_mixedData constants_mixedModel]
    decide +kernel
  obtain ⟨u, hu, hclassified⟩ := classified_of_build (by decide) hg
  exact ⟨u, g, hu, hg, hclassified, hfacts⟩

/-- The node has the distribution or the expression of the meaning. -/
def Carries (n : Node) : Meaning → Prop
  | .dist law => n.role.dist? = some law
  | .expr e => n.role.expr? = some e

/-- Not every node with a statement has the distribution or the expression of its first definition:
the data for `z` takes the place of the expression. -/
theorem not_carries_mixedModel :
    ∃ u g, Unrolled.make mixedModel mixedData
        (Registry.builtin : Registry Dual).foldingFunctions = .ok u ∧
      (build mixedModel mixedData (Registry.builtin : Registry Dual)).collect.1 = .ok g ∧
      ¬ ∀ n ∈ g.nodes, n.statement.isSome = true →
        ∃ d, firstOf u.definitions n.id = some d ∧ Carries n d.meaning := by
  have hruns : ((Unrolled.make mixedModel mixedData
      (Registry.builtin : Registry Dual).foldingFunctions).toOption.bind fun u =>
        (build mixedModel mixedData (Registry.builtin : Registry Dual)).collect.1.toOption.bind fun g =>
        (g.nodes[2]?).bind fun n => (firstOf u.definitions n.id).bind fun d =>
          if n.statement.isSome ∧ n.role.expr?.isNone ∧ d.meaning.isStochastic = false
          then some (u, g, n, d) else none).isSome = true := by
    rw [build_result]
    unfold Unrolled.make
    simp only [flatten_mixedData, constants_mixedModel, ok_bind]
    decide +kernel
  obtain ⟨v, hv⟩ := Option.isSome_iff_exists.mp hruns
  obtain ⟨u, hu, hv⟩ := Option.bind_eq_some_iff.mp hv
  obtain ⟨g, hg, hv⟩ := Option.bind_eq_some_iff.mp hv
  obtain ⟨n, hn, hv⟩ := Option.bind_eq_some_iff.mp hv
  obtain ⟨d, hd, hv⟩ := Option.bind_eq_some_iff.mp hv
  rw [toOption_eq_some] at hu hg
  split at hv
  · next hfacts =>
    obtain ⟨hstatement, hexpr, hlogical⟩ := hfacts
    refine ⟨u, g, hu, hg, fun hall => ?_⟩
    obtain ⟨d', hd', hcarries⟩ := hall n (List.mem_of_getElem? hn) hstatement
    rw [hd, Option.some.injEq] at hd'
    subst hd'
    cases hmeaning : d.meaning with
    | dist law =>
      rw [hmeaning] at hlogical
      cases hlogical
    | expr e =>
      rw [hmeaning] at hcarries
      unfold Carries at hcarries
      rw [hcarries] at hexpr
      cases hexpr
  · cases hv

end BayesGraph.Graph
