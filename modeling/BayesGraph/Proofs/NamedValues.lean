import BayesGraph.Coordinates
import BayesGraph.Proofs.Solution

/-!
# Named values

`unflatten` names the values that belong to a vector of coordinates: those of the parameters, and
those of the logical nodes if they are included. Which names it lists, and in which order, depends
on the graph only (`keys_of_unflatten`). A name is listed once, with the number that the evaluation
has put into the slot of its node.
-/

set_option autoImplicit false

namespace BayesGraph.Graph

open Outcome

variable {α : Type} {g : Graph}

/-- The numbers of the nodes whose values are named. -/
def named (g : Graph) (logical : Bool) : List Nat :=
  g.parameters ++
    if logical then (List.range g.size).filter fun i => (g.nodes[i]?).any (·.role.isLogical) else []

/-- The identities of some nodes, one for each. -/
theorem forall₂_identities {is : List Nat} (his : ∀ i ∈ is, i < g.size) :
    List.Forall₂ (fun i id => ∃ n, g.nodes[i]? = some n ∧ n.id = id) is (g.identities is) := by
  induction is with
  | nil => exact .nil
  | cons i is ih =>
    have hn := List.getElem?_eq_getElem (his i List.mem_cons_self)
    unfold identities at ih ⊢
    rw [List.filterMap_cons, hn]
    exact .cons ⟨_, hn, rfl⟩ (ih fun j hj => his j (List.mem_cons_of_mem i hj))

/-- A list of numbers contains that of a node exactly if its identity is among the identities. -/
theorem WellFormed.mem_identities_iff (hg : g.WellFormed) {is : List Nat} {u : Nat} {p : Node}
    (hp : g.nodes[u]? = some p) : p.id ∈ g.identities is ↔ u ∈ is := by
  unfold identities
  rw [List.mem_filterMap]
  constructor
  · rintro ⟨i, hi, hid⟩
    obtain ⟨n, hn, hsame⟩ := Option.map_eq_some_iff.mp hid
    have hindex := hg.index?_of_getElem? hn
    rw [hsame, hg.index?_of_getElem? hp, Option.some.injEq] at hindex
    exact hindex ▸ hi
  · intro hu
    exact ⟨u, hu, by rw [hp]; rfl⟩

/-- Different numbers have different identities. -/
theorem WellFormed.nodup_identities (hg : g.WellFormed) {is : List Nat} (his : is.Nodup) :
    (g.identities is).Nodup := by
  refine his.filterMap fun i j id hi hj => ?_
  obtain ⟨n, hn, rfl⟩ := Option.map_eq_some_iff.mp hi
  obtain ⟨q, hq, hid⟩ := Option.map_eq_some_iff.mp hj
  have hindex := hg.index?_of_getElem? hq
  rw [hid, hg.index?_of_getElem? hn, Option.some.injEq] at hindex
  exact hindex

/-- The parameters with their names. -/
theorem WellFormed.forall₂_parameters (hg : g.WellFormed) :
    List.Forall₂ (fun i id => ∃ n, g.nodes[i]? = some n ∧ n.role.isParameter = true ∧ n.id = id)
      g.parameters g.parameterNames := by
  have hparameters : ∀ i ∈ g.parameters,
      i < g.size ∧ (g.nodes[i]?).any (·.role.isParameter) = true := by
    intro i hi
    rw [hg.parameters, List.mem_filter] at hi
    exact ⟨hg.lt_size i hi.1, hi.2⟩
  have hnames := forall₂_identities fun i hi => (hparameters i hi).1
  refine ((List.forall₂_and_left _ _).mpr ⟨fun i hi => (hparameters i hi).2, hnames⟩).imp ?_
  rintro i id ⟨hparameter, n, hn, hid⟩
  rw [hn] at hparameter
  exact ⟨n, hn, hparameter, hid⟩

/-- A logical node is named if logical nodes are included, and it is no parameter. -/
theorem WellFormed.logical_named (hg : g.WellFormed) {i : Nat} {n : Node}
    (hn : g.nodes[i]? = some n) (hlogical : n.role.isLogical = true) :
    i ∈ g.named true ∧ i ∉ g.parameters := by
  constructor
  · refine List.mem_append_right _ (List.mem_filter.mpr ⟨List.mem_range.mpr ?_, ?_⟩)
    · exact (List.getElem?_eq_some_iff.mp hn).1
    · rw [hn]
      exact hlogical
  · intro hi
    rw [hg.mem_parameters_iff hn] at hi
    cases hrole : n.role <;> simp [hrole, Role.isParameter, Role.isLogical] at hi hlogical

/-- No node is named twice: a parameter is not logical. -/
theorem WellFormed.nodup_named (hg : g.WellFormed) (logical : Bool) : (g.named logical).Nodup := by
  have hparameters : g.parameters.Nodup := hg.parameters ▸ hg.order.nodup.filter _
  cases logical with
  | false => simpa [named] using hparameters
  | true =>
    refine List.nodup_append.mpr ⟨hparameters, List.nodup_range.filter _, ?_⟩
    rintro i hi _ hj rfl
    obtain ⟨_, -, n, hn, -, -⟩ := exists_of_forall₂ hg.forall₂_parameters hi
    have hlogical := (List.mem_filter.mp hj).2
    rw [hn] at hlogical
    exact (hg.logical_named hn hlogical).2 hi

/-- Only parameters are named if logical nodes are not included, or if there are none. -/
theorem named_eq_parameters {logical : Bool}
    (h : logical = false ∨ ∀ n ∈ g.nodes, n.role.isLogical = false) :
    g.named logical = g.parameters := by
  unfold named
  rcases h with rfl | h
  · exact List.append_nil _
  · have hnone : ((List.range g.size).filter fun i => (g.nodes[i]?).any (·.role.isLogical)) = [] := by
      refine List.filter_eq_nil_iff.mpr fun i _ => ?_
      cases hn : g.nodes[i]? with
      | none => simp
      | some n => simp [h n (List.mem_of_getElem? hn)]
    rw [hnone, ite_self, List.append_nil]

variable [Scalar α] {r : Registry α} {mode : EvaluationMode} {theta : List α} {ev : Evaluation α}

/-- The logical nodes are listed with the values in their slots. -/
theorem forall₂_logicalValues (hg : g.WellFormed) (h : g.evaluate r mode theta = .ok ev) :
    List.Forall₂ (fun i p => (g.nodes[i]?).map (·.id) = some p.1 ∧ ev.slots i = some p.2)
      ((List.range g.size).filter fun i => (g.nodes[i]?).any (·.role.isLogical))
      (g.logicalValues ev.slots) := by
  have hpairs : List.Forall₂ (fun i p => g.nodes[i]? = some p.2 ∧ p.1 = i) (List.range g.size)
      ((List.range g.size).zip g.nodes) := by
    refine List.forall₂_iff_get.mpr ⟨by simp [size], fun k hk hk' => ?_⟩
    simp
  unfold logicalValues
  rw [List.filterMap_eq_flatMap_toList]
  refine forall₂_filter_flatMap hpairs ?_
  rintro i ⟨_, n⟩ ⟨hn, rfl⟩
  rw [hn, Option.any_some]
  dsimp only at hn ⊢
  split
  · next hlogical =>
    obtain ⟨cs, hcs, -, -⟩ := (evaluate_eq_ok_iff hg).mp h
    obtain ⟨c, -, -, -, hslot, -⟩ := exists_of_forall₂ hcs (hg.mem_order hn)
    exact ⟨(n.id, c.value), by rw [hslot]; rfl, rfl, hslot⟩
  · rfl

/-- The values that are named are those in the slots of their nodes. -/
theorem forall₂_named (hg : g.WellFormed) (h : g.evaluate r mode theta = .ok ev) (logical : Bool) :
    List.Forall₂ (fun i p => (g.nodes[i]?).map (·.id) = some p.1 ∧ ev.slots i = some p.2)
      (g.named logical)
      (if logical then ev.parameters ++ g.logicalValues ev.slots else ev.parameters) := by
  have hparameters := parameters_of_evaluate hg h
  unfold named
  cases logical with
  | false => simpa using hparameters
  | true => exact List.rel_append hparameters (forall₂_logicalValues hg h)

/-- The values that are named belong to their identities. -/
theorem valuation_of_named (hg : g.WellFormed) (h : g.evaluate r mode theta = .ok ev)
    {logical : Bool} {id : Identity} {v : Value α}
    (hmem : (id, v) ∈ if logical then ev.parameters ++ g.logicalValues ev.slots else ev.parameters) :
    g.valuation ev.slots id = some v := by
  obtain ⟨i, -, hid, hv⟩ := exists_of_forall₂ (forall₂_named hg h logical).flip hmem
  obtain ⟨n, hn, rfl⟩ := Option.map_eq_some_iff.mp hid
  rw [(hg.at_node theta ev.slots hn).2, hv]

variable {transformed logical : Bool} {values : List (Identity × α)}

/-- The values that a vector is taken to are those of an evaluation. -/
theorem unflatten_eq_ok (h : g.unflatten r transformed logical theta = .ok values) :
    ∃ ev, g.evaluate r { transformed, score := false } theta = .ok ev ∧
      List.Forall₂ (fun p q => p.2.toScalar = .ok q.2 ∧ p.1 = q.1)
        (if logical then ev.parameters ++ g.logicalValues ev.slots else ev.parameters) values := by
  unfold unflatten at h
  obtain ⟨ev, hev, h⟩ := bind_eq_ok.mp h
  refine ⟨ev, hev, (mapM_eq_ok.mp h).imp ?_⟩
  rintro ⟨id, v⟩ ⟨id', x⟩ hx
  simp only [bind_eq_ok, pure_eq_ok, Prod.mk.injEq] at hx
  obtain ⟨y, hy, rfl, rfl⟩ := hx
  exact ⟨hy, rfl⟩

/-- The names of the values that a vector is taken to depend on the graph only. -/
theorem keys_of_unflatten (hg : g.WellFormed)
    (h : g.unflatten r transformed logical theta = .ok values) :
    values.map Prod.fst = g.identities (g.named logical) := by
  obtain ⟨ev, hev, hvalues⟩ := unflatten_eq_ok h
  have hnamed := filterMap_of_forall₂ ((forall₂_named hg hev logical).imp fun _ _ hp => hp.1)
  have hkeys : List.Forall₂ Eq
      ((if logical then ev.parameters ++ g.logicalValues ev.slots else ev.parameters).map Prod.fst)
      (values.map Prod.fst) :=
    List.forall₂_map_left_iff.mpr (List.forall₂_map_right_iff.mpr (hvalues.imp fun _ _ hq => hq.2))
  rw [List.forall₂_eq_eq_eq] at hkeys
  exact hkeys.symm.trans hnamed.symm

end BayesGraph.Graph
