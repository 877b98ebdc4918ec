import BayesGraph.Proofs.MarkovBlanket
import BayesGraph.Proofs.NamedValues

/-!
# Symmetry of Markov blankets

Two nodes are connected if a path between them passes through logical nodes only, or if such paths
lead from both of them to one stochastic node, a common descendant. The relation is symmetric, and
the Markov blanket of a node lists exactly the other stochastic nodes that are connected with it.
The search along parents and the search along children find the same paths, each from its own end.
-/

set_option autoImplicit false

namespace BayesGraph.Graph

/-- A directed path leads from one node to another, with logical nodes between them. -/
abbrev Leads (g : Graph) (u v : Nat) : Prop := g.Path g.parentLists.children u v

/-- A path that can be followed in one direction leads from one of the nodes to the other, or paths
lead from both of them to a stochastic node. -/
inductive Connected (g : Graph) (u v : Nat) : Prop
  | forward (h : g.Leads u v)
  | backward (h : g.Leads v u)
  | collider {c : Nat} {n : Node} (hn : g.nodes[c]? = some n) (hstochastic : n.isStochastic = true)
      (hu : g.Leads u c) (hv : g.Leads v c)

/-- A connection goes in both directions. -/
theorem Connected.symm {g : Graph} {u v : Nat} (h : g.Connected u v) : g.Connected v u := by
  cases h with
  | forward h => exact .backward h
  | backward h => exact .forward h
  | collider hn hstochastic hu hv => exact .collider hn hstochastic hv hu

/-- A path along children is one along parents, followed from its end. -/
theorem leads_iff {g : Graph} {u v : Nat} : g.Leads u v ↔ g.Path g.parentLists.parents v u := by
  constructor
  · exact fun h => h.reverse fun _ _ hchild => ParentLists.mem_children_iff.mp hchild
  · exact fun h => h.reverse fun _ _ hparent => ParentLists.mem_children_iff.mpr hparent

section WellFormed

variable {g : Graph}

/-- The Markov blanket of a node consists of the other stochastic nodes that are connected with
it. -/
theorem WellFormed.mem_markovBlanket_iff_connected (hg : g.WellFormed) {u v : Nat} {p : Node}
    (hp : g.nodes[u]? = some p) :
    u ∈ g.markovBlanket v ↔ u ≠ v ∧ p.isStochastic = true ∧ g.Connected u v := by
  have hnode : (∃ n, g.nodes[u]? = some n ∧ n.isStochastic = true) ↔ p.isStochastic = true := by
    simp [hp]
  rw [hg.mem_markovBlanket_iff, and_congr_right_iff]
  intro _
  simp only [hg.mem_stochasticParents_iff, hg.mem_stochasticChildren_iff, hnode, ← leads_iff]
  constructor
  · rintro (⟨hpath, hstochastic⟩ | ⟨hpath, hstochastic⟩ |
      ⟨c, ⟨hv, n, hn, hcommon⟩, hu, hstochastic⟩)
    · exact ⟨hstochastic, .forward hpath⟩
    · exact ⟨hstochastic, .backward hpath⟩
    · exact ⟨hstochastic, .collider hn hcommon hu hv⟩
  · rintro ⟨hstochastic, hconnected⟩
    cases hconnected with
    | forward hpath => exact Or.inl ⟨hpath, hstochastic⟩
    | backward hpath => exact Or.inr (Or.inl ⟨hpath, hstochastic⟩)
    | @collider c n hn hcommon hu hv =>
      exact Or.inr (Or.inr ⟨c, ⟨hv, n, hn, hcommon⟩, hu, hstochastic⟩)

end WellFormed

/-- Markov blankets are symmetric and exact. Of two stochastic nodes, one is in the blanket of the
other exactly if they are connected. A blanket lists no identity twice, only stochastic nodes, and
never the node that it belongs to. -/
theorem markovBlanket_symm_of_build {α : Type} [Scalar α] {m : Model}
    {bindings : Table String Datum} {r : Registry α} {g : Graph}
    (hg : (build m bindings r).collect.1 = .ok g) :
    (∀ u v p q, g.nodes[u]? = some p → g.nodes[v]? = some q → p.isStochastic = true →
      q.isStochastic = true → u ≠ v →
        (p.id ∈ g.identities (g.markovBlanket v) ↔ q.id ∈ g.identities (g.markovBlanket u)) ∧
        (p.id ∈ g.identities (g.markovBlanket v) ↔ g.Connected u v)) ∧
    ∀ v, (g.identities (g.markovBlanket v)).Nodup ∧
      ∀ u p, g.nodes[u]? = some p → p.id ∈ g.identities (g.markovBlanket v) →
        p.isStochastic = true ∧ u ≠ v := by
  have hwf := wellFormed_of_build hg
  constructor
  · intro u v p q hp hq hpstochastic hqstochastic hne
    have huv : p.id ∈ g.identities (g.markovBlanket v) ↔ g.Connected u v := by
      rw [hwf.mem_identities_iff hp, hwf.mem_markovBlanket_iff_connected hp]
      simp [hne, hpstochastic]
    have hvu : q.id ∈ g.identities (g.markovBlanket u) ↔ g.Connected v u := by
      rw [hwf.mem_identities_iff hq, hwf.mem_markovBlanket_iff_connected hq]
      simp [hne.symm, hqstochastic]
    exact ⟨huv.trans ((⟨Connected.symm, Connected.symm⟩ : _ ↔ _).trans hvu.symm), huv⟩
  · intro v
    constructor
    · exact hwf.nodup_identities (List.nodup_range.filter _)
    · intro u p hp hlisted
      rw [hwf.mem_identities_iff hp, hwf.mem_markovBlanket_iff_connected hp] at hlisted
      exact ⟨hlisted.2.1, hlisted.1⟩

/-- The sum of `a` and `b` reaches the observation of `y` by two ways, and `w` depends on `y`. -/
def diamondModel : Model where
  statements :=
    [.sample [] (.var (.text "a"))
      (.dist { name := .text "dnorm", params := [.literal (.int 0), .literal (.int 1)] }),
    .sample [] (.var (.text "b"))
      (.dist { name := .text "dnorm", params := [.literal (.int 0), .literal (.int 1)] }),
    .assign [] (.var (.text "s")) (.add (.var (.text "a")) (.var (.text "b"))),
    .assign [] (.var (.text "t")) (.mul (.var (.text "s")) (.var (.text "s"))),
    .sample [] (.var (.text "y"))
      (.dist { name := .text "dnorm",
               params := [.add (.var (.text "s")) (.var (.text "t")), .literal (.int 1)] }),
    .sample [] (.var (.text "w"))
      (.dist { name := .text "dnorm", params := [.var (.text "y"), .literal (.int 1)] })]

/-- The data are the only constants of the model. -/
theorem constants_diamondModel :
    Folding.constants (Registry.builtin : Registry Dual).foldingFunctions diamondModel.statements
      shiftBindings = .ok (shiftBindings.values.map fun n => n.map Scalar.ofDouble) := by
  unfold Folding.constants Folding.saturate
  rfl

/-- The observation connects `a` with `b`, which are therefore in the blankets of each other. It
keeps `w` apart from them. -/
theorem markovBlanket_symm_diamondModel :
    ∃ g a b w, (build diamondModel shiftData (Registry.builtin : Registry Dual)).collect.1 = .ok g ∧
      g.nodes[0]? = some a ∧ g.nodes[1]? = some b ∧ g.nodes[5]? = some w ∧
      (b.id ∈ g.identities (g.markovBlanket 0) ∧ a.id ∈ g.identities (g.markovBlanket 1) ∧
        g.Connected 0 1) ∧
      (w.id ∉ g.identities (g.markovBlanket 0) ∧ a.id ∉ g.identities (g.markovBlanket 5) ∧
        ¬ g.Connected 0 5) := by
  obtain ⟨g, hg, a, ha, b, hb, w, hw, hblanket, hapart, hastochastic, hbstochastic,
      hwstochastic⟩ : ∃ g, (build diamondModel shiftData
        (Registry.builtin : Registry Dual)).collect.1 = .ok g ∧
      ∃ a ∈ g.nodes[0]?, ∃ b ∈ g.nodes[1]?, ∃ w ∈ g.nodes[5]?,
        g.markovBlanket 1 = [0, 4] ∧ g.markovBlanket 5 = [4] ∧ a.isStochastic = true ∧
          b.isStochastic = true ∧ w.isStochastic = true := by
    rw [build_of_constants flatten_shiftData constants_diamondModel]
    decide +kernel
  have hwf := wellFormed_of_build hg
  have hab := (markovBlanket_symm_of_build hg).1 0 1 a b ha hb hastochastic hbstochastic
    (by decide)
  have haw := (markovBlanket_symm_of_build hg).1 0 5 a w ha hw hastochastic hwstochastic
    (by decide)
  have hlisted : a.id ∈ g.identities (g.markovBlanket 1) := by
    rw [hwf.mem_identities_iff ha, hblanket]
    exact List.mem_cons_self
  have hunlisted : a.id ∉ g.identities (g.markovBlanket 5) := by
    rw [hwf.mem_identities_iff ha, hapart]
    decide
  exact ⟨g, a, b, w, hg, ha, hb, hw, ⟨hab.1.mp hlisted, hlisted, hab.2.mp hlisted⟩,
    mt haw.1.mpr hunlisted, hunlisted, mt haw.2.mpr hunlisted⟩

end BayesGraph.Graph
