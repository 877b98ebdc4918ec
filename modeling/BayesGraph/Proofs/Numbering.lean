import BayesGraph.Dual
import BayesGraph.Proofs.Build

/-!
# How a graph numbers its nodes

Nodes are numbered in three passes: definitions first, then the leaves that their references need,
and at last an order is found. `Consistent` says how the results fit together: numbers and
identities correspond one to one, the parents of a node are the numbers of its references in the
order in which they occur first, edges are these and no others, and the order is the
lexicographically least one in which parents come first.
-/

set_option autoImplicit false

namespace BayesGraph.Graph

open Outcome

/-- The list has the numbers of all references, each once, in the order in which the references
occur first. -/
structure ListsParents (g : Graph) (refs : List Identity) (parents : List Nat) : Prop where
  nodup : parents.Nodup
  mem_iff : ∀ j, j ∈ parents ↔ ∃ id ∈ refs, g.index? id = some j
  first_occurrence : parents.Pairwise fun j k => ∃ a b, g.index? a = some j ∧
    g.index? b = some k ∧ refs.idxOf a < refs.idxOf b

/-- Numbers, parents, edges and the order of a graph fit together. -/
structure Consistent (g : Graph) : Prop where
  /-- The number of an identity is the number of the node with this identity. -/
  index?_eq_some_iff : ∀ id i, g.index? id = some i ↔ (g.nodes[i]?).map (·.id) = some id
  /-- The numbers in use are those below the number of nodes. -/
  exists_index? : ∀ i, i < g.size ↔ ∃ id, g.index? id = some i
  /-- Parents come from the distribution, its bounds included, or from the expression. -/
  parents : ∀ n ∈ g.nodes, ∃ refs, Expr.refsOfAll n.role.parts = .ok refs ∧
    g.ListsParents refs n.parents
  /-- There is an edge from each parent, and no other edge. -/
  edges : ∀ i j, j ∈ g.parentLists.children i ↔ ∃ n, g.nodes[j]? = some n ∧ i ∈ n.parents
  order : g.parentLists.IsOrder g.order
  least : ∀ order, g.parentLists.IsOrder order → g.order = order ∨ List.Lex (· < ·) g.order order
  parameters : g.parameters = g.order.filter fun i => (g.nodes[i]?).any (·.role.isParameter)

section WellFormed

variable {g : Graph}

/-- The number of an identity is that of the node that has it. -/
theorem WellFormed.index?_eq_some_iff (hg : g.WellFormed) {id : Identity} {i : Nat} :
    g.index? id = some i ↔ (g.nodes[i]?).map (·.id) = some id := by
  rw [index?_eq_placeOf, placeOf_eq_some_iff hg.nodup, List.getElem?_map]

/-- Different identities have different numbers. -/
theorem WellFormed.index?_inj (hg : g.WellFormed) {a b : Identity} {i : Nat}
    (ha : g.index? a = some i) (hb : g.index? b = some i) : a = b := by
  rw [hg.index?_eq_some_iff] at ha hb
  exact Option.some.inj (ha.symm.trans hb)

/-- The numbers of references without repetitions are a list of parents. -/
theorem WellFormed.listsParents (hg : g.WellFormed) {refs : List Identity} {parents : List Nat}
    (h : (distinct refs).map g.index? = parents.map some) : g.ListsParents refs parents := by
  let number (id : Identity) : Nat := (g.index? id).getD 0
  have hnumber : ∀ id ∈ distinct refs, g.index? id = some (number id) := by
    intro id hid
    have hmem : g.index? id ∈ parents.map some := h ▸ List.mem_map_of_mem hid
    obtain ⟨j, -, hj⟩ := List.mem_map.mp hmem
    simp [number, ← hj]
  have hparents : parents = (distinct refs).map number := by
    have hget := congrArg (List.map fun o : Option Nat => o.getD 0) h
    simpa [Function.comp_def] using hget.symm
  subst hparents
  constructor
  · refine (nodup_distinct refs).map_on ?_
    intro a ha b hb hab
    apply hg.index?_inj (hnumber a ha)
    rw [hnumber b hb, hab]
  · intro j
    rw [List.mem_map]
    constructor
    · rintro ⟨id, hid, rfl⟩
      exact ⟨id, mem_distinct.mp hid, hnumber id hid⟩
    · rintro ⟨id, hid, hj⟩
      have hid := mem_distinct.mpr hid
      rw [hnumber id hid] at hj
      exact ⟨id, hid, Option.some.inj hj⟩
  · rw [List.pairwise_map]
    refine (pairwise_idxOf_distinct refs).imp_of_mem ?_
    intro a b ha hb hab
    exact ⟨a, b, hnumber a ha, hnumber b hb, hab⟩

/-- An edge leads from each parent of a node to the node. -/
theorem mem_children_iff {i j : Nat} :
    j ∈ g.parentLists.children i ↔ ∃ n, g.nodes[j]? = some n ∧ i ∈ n.parents := by
  rw [ParentLists.mem_children_iff]
  constructor
  · intro hi
    cases hn : g.nodes[j]? with
    | none =>
      unfold parentLists ParentLists.parents at hi
      simp [hn] at hi
    | some n =>
      rw [parents_of_getElem? hn] at hi
      exact ⟨n, rfl, hi⟩
  · rintro ⟨n, hn, hi⟩
    rwa [parents_of_getElem? hn]

/-- A well-formed graph whose order is the one that is found is consistent. -/
theorem WellFormed.consistent (hg : g.WellFormed) (horder : g.parentLists.order? = some g.order) :
    g.Consistent where
  index?_eq_some_iff _ _ := hg.index?_eq_some_iff
  exists_index? i := by
    constructor
    · intro hi
      exact ⟨g.nodes[i].id, hg.index?_of_getElem? (List.getElem?_eq_getElem hi)⟩
    · rintro ⟨id, hid⟩
      obtain ⟨n, hn, -⟩ := hg.getElem?_of_index? hid
      exact (List.getElem?_eq_some_iff.mp hn).1
  parents n hn := by
    obtain ⟨refs, hrefs, hlinked⟩ := hg.linked n hn
    exact ⟨refs, hrefs, hg.listsParents hlinked⟩
  edges _ _ := mem_children_iff
  order := hg.order
  least _ hother := ParentLists.order?_least horder hother
  parameters := hg.parameters

end WellFormed

variable {α : Type}

/-- Leaves of data have no parents. -/
theorem parents_of_leaf {β : Type} {u : Unrolled β} {r : Registry α} {g : Graph}
    (h : ofUnrolled u r = .ok g) {n : Node} (hn : n ∈ g.nodes) (hleaf : n.statement = none) :
    n.parents = [] := by
  obtain ⟨nodes, links, hnodes, hlinks, hg, -, -⟩ := ofUnrolled_eq_ok h
  rw [hg, List.mem_append] at hn
  rcases hn with hn | hn
  · obtain ⟨d, -, -, -, hsource, -⟩ := mem_zipWith_linked (mapM_eq_ok.mp hnodes) hlinks.parents hn
    rw [hleaf] at hsource
    cases hsource
  · obtain ⟨v, -, heq⟩ := hlinks.from_data n hn
    rw [heq]
    rfl

/-- A node has no parents if data takes the place of its definition. -/
theorem parents_of_overridden {β : Type} {u : Unrolled β} {r : Registry α} {g : Graph}
    (h : ofUnrolled u r = .ok g) {n : Node} (hn : n ∈ g.nodes) {d : Definition}
    (hd : u.definitions.find? (fun e => decide (e.target = n.id)) = some d)
    (hdata : d.isOverridden u.data = true) : n.parents = [] := by
  obtain ⟨nodes, links, hnodes, hlinks, hg, -, -⟩ := ofUnrolled_eq_ok h
  rw [hg, List.mem_append] at hn
  rcases hn with hn | hn
  · obtain ⟨e, he, hid, -, -, hplaces⟩ :=
      mem_zipWith_linked (mapM_eq_ok.mp hnodes) hlinks.parents hn
    have hsame : some d = some e := by
      rw [← hd, hid, ← find?_firstDefinitions]
      exact find?_target (nodup_firstDefinitions _) he
    cases hsame
    unfold Definition.usedRefs at hplaces
    rw [if_pos hdata] at hplaces
    simpa using hplaces
  · obtain ⟨v, -, heq⟩ := hlinks.from_data n hn
    rw [heq]
    rfl

variable [Scalar α]

/-- The numbers, parents, edges and the order of a built graph fit together. Only nodes with a
distribution or an expression have parents: neither leaves of data nor the nodes of definitions that
data takes the place of have any. -/
theorem consistent_of_build {m : Model} {bindings : Table String Datum} {r : Registry α} {g : Graph}
    (hg : (build m bindings r).collect.1 = .ok g) :
    g.Consistent ∧ ∃ u, Unrolled.make m bindings r.foldingFunctions = .ok u ∧
      (∀ n ∈ g.nodes, n.statement = none → n.parents = []) ∧
      ∀ n ∈ g.nodes, ∀ d, u.definitions.find? (fun e => decide (e.target = n.id)) = some d →
        d.isOverridden u.data = true → n.parents = [] := by
  obtain ⟨u, hu, hofUnrolled⟩ := ofUnrolled_of_build hg
  obtain ⟨-, -, -, -, -, horder, -⟩ := ofUnrolled_eq_ok hofUnrolled
  refine ⟨(wellFormed_of_build hg).consistent horder, u, hu, ?_, ?_⟩
  · intro n hn hleaf
    exact parents_of_leaf hofUnrolled hn hleaf
  · intro n hn d hd hdata
    exact parents_of_overridden hofUnrolled hn hd hdata

/-- Definitions in front of what they refer to: an observation `y` with mean `z` and precision `c`,
the logical node `z <- x + x * c`, and the parameter `x`, truncated below at the data `c`. -/
def backwardsModel : Model where
  statements :=
    [.sample [] (.var (.text "y"))
      (.dist { name := .text "dnorm", params := [.var (.text "z"), .var (.text "c")] }),
    .assign [] (.var (.text "z"))
      (.add (.var (.text "x")) (.mul (.var (.text "x")) (.var (.text "c")))),
    .sample [] (.var (.text "x"))
      (.dist {
        name := .text "dnorm"
        params := [.literal (.int 0), .literal (.int 1)]
        lower := some (.var (.text "c"))
      })]

/-- The values of `y` and `c`. -/
def backwardsData : Table String Datum := ⟨[("y", .int 2), ("c", .int 1)]⟩

/-- The data are two numbers. -/
theorem flatten_backwardsData : Bindings.flatten backwardsData =
    .ok ⟨⟨[(⟨"y", []⟩, .int 2), (⟨"c", []⟩, .int 1)]⟩, ⟨[("y", []), ("c", [])]⟩⟩ := rfl

/-- The data are the only constants of the model. -/
theorem constants_backwardsModel :
    Folding.constants (Registry.builtin : Registry Dual).foldingFunctions backwardsModel.statements
      ⟨⟨[(⟨"y", []⟩, .int 2), (⟨"c", []⟩, .int 1)]⟩, ⟨[("y", []), ("c", [])]⟩⟩ =
      .ok ⟨[(⟨"y", []⟩, .int 2), (⟨"c", []⟩, .int 1)]⟩ := by
  unfold Folding.constants Folding.saturate
  rfl

/-- The data leaf has the last number and the first place, and the order goes backwards through
the definitions. -/
theorem consistent_backwardsModel :
    ∃ g, (build backwardsModel backwardsData (Registry.builtin : Registry Dual)).collect.1 = .ok g ∧
      g.order = [3, 2, 1, 0] ∧ g.nodes.map (·.parents) = [[1, 3], [2, 3], [3], []] ∧
      g.Consistent := by
  obtain ⟨g, hg, horder, hparents⟩ : ∃ g, (build backwardsModel backwardsData
      (Registry.builtin : Registry Dual)).collect.1 = .ok g ∧
        g.order = [3, 2, 1, 0] ∧ g.nodes.map (·.parents) = [[1, 3], [2, 3], [3], []] := by
    rw [build_of_constants flatten_backwardsData constants_backwardsModel]
    decide +kernel
  exact ⟨g, hg, horder, hparents, (consistent_of_build hg).1⟩

end BayesGraph.Graph
