import BayesGraph.Dual
import BayesGraph.Proofs.Solution

/-!
# Markov blankets

Two evaluations of a graph at different vectors are compared. `Path` is what carries influence: it
leads from node to node and passes through logical nodes only. If the coordinates of all parameters
from which a path leads to a node are the same, its parents have the same values in both runs, and
so has its term in the density. The searches for the closest stochastic ancestors and descendants
find the ends of the paths, and these are the same paths in opposite directions.
-/

set_option autoImplicit false

namespace BayesGraph.Graph

open Outcome

variable {α : Type}

/-! ## Paths through logical nodes -/

/-- A path along `next`, with logical nodes between its ends. -/
inductive Path (g : Graph) (next : Nat → List Nat) : Nat → Nat → Prop
  | edge {i j : Nat} (hj : j ∈ next i) : Path g next i j
  | step {i j k : Nat} {n : Node} (hk : k ∈ next i) (hn : g.nodes[k]? = some n)
      (hlogical : n.role.isLogical = true) (rest : Path g next k j) : Path g next i j

/-- A path goes on behind a logical node. -/
theorem Path.snoc {g : Graph} {next : Nat → List Nat} {i j k : Nat} {n : Node}
    (h : g.Path next i k) (hn : g.nodes[k]? = some n) (hlogical : n.role.isLogical = true)
    (hj : j ∈ next k) : g.Path next i j := by
  induction h with
  | edge hk => exact .step hk hn hlogical (.edge hj)
  | step hk hm hm' _ ih => exact .step hk hm hm' (ih hn hj)

/-- A path can be followed backwards. -/
theorem Path.reverse {g : Graph} {next back : Nat → List Nat}
    (hback : ∀ i j, j ∈ next i → i ∈ back j) {i j : Nat} (h : g.Path next i j) :
    g.Path back j i := by
  induction h with
  | edge hj => exact .edge (hback _ _ hj)
  | step hk hn hlogical _ ih => exact ih.snoc hn hlogical (hback _ _ hk)

/-- A stochastic node is no logical one. -/
theorem not_isLogical_of_isStochastic {n : Node} (h : n.isStochastic = true) :
    n.role.isLogical = false := by
  unfold Node.isStochastic at h
  cases hrole : n.role with
  | logical e => simp [hrole, Role.dist?] at h
  | observed value dist => rfl
  | parameter law => rfl

/-- Parameters are stochastic. -/
theorem isStochastic_of_isParameter {n : Node} (h : n.role.isParameter = true) :
    n.isStochastic = true := by
  unfold Node.isStochastic
  cases hrole : n.role with
  | parameter law => rfl
  | observed value dist => simp [hrole, Role.isParameter] at h
  | logical e => simp [hrole, Role.isParameter] at h

/-- The search finds stochastic ends of paths only. -/
theorem path_of_mem_stochasticNeighbours {g : Graph} {next : Nat → List Nat} {fuel i j : Nat}
    (h : j ∈ g.stochasticNeighbours next fuel i) :
    g.Path next i j ∧ ∃ n, g.nodes[j]? = some n ∧ n.isStochastic = true := by
  induction fuel generalizing i with
  | zero => cases h
  | succ fuel ih =>
    unfold stochasticNeighbours at h
    obtain ⟨k, hk, hj⟩ := List.mem_flatMap.mp h
    cases hn : g.nodes[k]? with
    | none =>
      rw [hn] at hj
      cases hj
    | some n =>
      rw [hn] at hj
      dsimp only at hj
      by_cases hlogical : n.role.isLogical = true
      · rw [if_pos hlogical] at hj
        obtain ⟨hpath, hstochastic⟩ := ih hj
        exact ⟨.step hk hn hlogical hpath, hstochastic⟩
      · rw [if_neg hlogical] at hj
        by_cases hstochastic : n.isStochastic = true
        · rw [if_pos hstochastic, List.mem_singleton] at hj
          subst hj
          exact ⟨.edge hk, n, hn, hstochastic⟩
        · rw [if_neg hstochastic] at hj
          cases hj

/-- The search finds all stochastic ends of paths if a rank below `fuel` falls with every edge. -/
theorem mem_stochasticNeighbours_of_path {g : Graph} {next : Nat → List Nat} {rank : Nat → Nat}
    (hrank : ∀ i j, j ∈ next i → rank j < rank i) {i j : Nat} (h : g.Path next i j) {n : Node}
    (hn : g.nodes[j]? = some n) (hstochastic : n.isStochastic = true) {fuel : Nat}
    (hfuel : rank i < fuel) : j ∈ g.stochasticNeighbours next fuel i := by
  induction h generalizing fuel with
  | @edge i j hj =>
    cases fuel with
    | zero => exact absurd hfuel (Nat.not_lt_zero _)
    | succ fuel =>
      unfold stochasticNeighbours
      apply List.mem_flatMap.mpr
      refine ⟨j, hj, ?_⟩
      rw [hn]
      simp [not_isLogical_of_isStochastic hstochastic, hstochastic]
  | @step i j k m hk hm hlogical _ ih =>
    cases fuel with
    | zero => exact absurd hfuel (Nat.not_lt_zero _)
    | succ fuel =>
      unfold stochasticNeighbours
      apply List.mem_flatMap.mpr
      refine ⟨k, hk, ?_⟩
      rw [hm]
      dsimp only
      rw [if_pos hlogical]
      apply ih hn
      have hless := hrank i k hk
      omega

section WellFormed

variable {g : Graph}

/-- There is a child, so the node and the child have places in the order, in this order. -/
theorem WellFormed.idxOf_lt (hg : g.WellFormed) {i j : Nat} (h : j ∈ g.parentLists.parents i) :
    g.order.idxOf j < g.order.idxOf i ∧ g.order.idxOf i < g.size := by
  have hi : i < g.parentLists.length := by
    by_contra hge
    unfold ParentLists.parents at h
    rw [List.getD_eq_getElem?_getD, List.getElem?_eq_none (Nat.le_of_not_lt hge)] at h
    cases h
  refine ⟨(hg.order.idxOf_lt hi h).2, ?_⟩
  have hlength : g.order.length = g.size := by
    rw [hg.order.perm.length_eq, List.length_range]
    exact List.length_map _
  rw [← hlength]
  exact List.idxOf_lt_length_of_mem (hg.order.mem_iff.mpr hi)

/-- The closest stochastic ancestors of a node are the stochastic ends of paths along parents. -/
theorem WellFormed.mem_stochasticParents_iff (hg : g.WellFormed) {i j : Nat} :
    j ∈ g.stochasticParents i ↔
      g.Path g.parentLists.parents i j ∧ ∃ n, g.nodes[j]? = some n ∧ n.isStochastic = true := by
  refine ⟨path_of_mem_stochasticNeighbours, ?_⟩
  rintro ⟨hpath, n, hn, hstochastic⟩
  refine mem_stochasticNeighbours_of_path (fun a b hb => (hg.idxOf_lt hb).1) hpath hn hstochastic ?_
  cases hpath with
  | edge hj => exact (hg.idxOf_lt hj).2
  | step hk _ _ _ => exact (hg.idxOf_lt hk).2

/-- The closest stochastic descendants of a node are the stochastic ends of paths along children. -/
theorem WellFormed.mem_stochasticChildren_iff (hg : g.WellFormed) {i j : Nat} :
    j ∈ g.stochasticChildren i ↔
      g.Path g.parentLists.children i j ∧ ∃ n, g.nodes[j]? = some n ∧ n.isStochastic = true := by
  refine ⟨path_of_mem_stochasticNeighbours, ?_⟩
  rintro ⟨hpath, n, hn, hstochastic⟩
  -- places rise along children, so their distances from the end fall
  have hrank : ∀ a b, b ∈ g.parentLists.children a →
      g.size - 1 - g.order.idxOf b < g.size - 1 - g.order.idxOf a := by
    intro a b hb
    have hlt := hg.idxOf_lt (ParentLists.mem_children_iff.mp hb)
    omega
  refine mem_stochasticNeighbours_of_path hrank hpath hn hstochastic ?_
  have hpos : 0 < g.size := by
    cases hpath with
    | edge hj => exact Nat.zero_lt_of_lt (hg.idxOf_lt (ParentLists.mem_children_iff.mp hj)).2
    | step hk _ _ _ => exact Nat.zero_lt_of_lt (hg.idxOf_lt (ParentLists.mem_children_iff.mp hk)).2
  omega

/-- A stochastic node is a closest stochastic descendant of its closest stochastic ancestors. -/
theorem WellFormed.mem_stochasticChildren_of_parents (hg : g.WellFormed) {i j : Nat} {n : Node}
    (hn : g.nodes[j]? = some n) (hstochastic : n.isStochastic = true)
    (h : i ∈ g.stochasticParents j) : j ∈ g.stochasticChildren i := by
  have hpath := (hg.mem_stochasticParents_iff.mp h).1
  apply hg.mem_stochasticChildren_iff.mpr
  refine ⟨hpath.reverse fun a b hb => ?_, n, hn, hstochastic⟩
  exact ParentLists.mem_children_iff.mpr hb

/-- The members of a Markov blanket. -/
theorem WellFormed.mem_markovBlanket_iff (hg : g.WellFormed) {i j : Nat} :
    j ∈ g.markovBlanket i ↔ j ≠ i ∧ (j ∈ g.stochasticParents i ∨ j ∈ g.stochasticChildren i ∨
      ∃ k ∈ g.stochasticChildren i, j ∈ g.stochasticParents k) := by
  have hlt : ∀ n, g.nodes[j]? = some n → j < g.size := by
    intro n hn
    exact (List.getElem?_eq_some_iff.mp hn).1
  have hmem : j ∈ g.markovBlanket i ↔ j < g.size ∧ j ≠ i ∧ (j ∈ g.stochasticParents i ∨
      j ∈ g.stochasticChildren i ∨ ∃ k ∈ g.stochasticChildren i, j ∈ g.stochasticParents k) := by
    simp [markovBlanket]
  rw [hmem, and_iff_right_iff_imp]
  rintro ⟨-, hparent | hchild | ⟨k, -, hparent⟩⟩
  · obtain ⟨-, n, hn, -⟩ := hg.mem_stochasticParents_iff.mp hparent
    exact hlt n hn
  · obtain ⟨-, n, hn, -⟩ := hg.mem_stochasticChildren_iff.mp hchild
    exact hlt n hn
  · obtain ⟨-, n, hn, -⟩ := hg.mem_stochasticParents_iff.mp hparent
    exact hlt n hn

end WellFormed

/-! ## Two evaluations -/

variable [Scalar α]

/-- A node has the same term in the density under both valuations: there is one exactly for a node
with a distribution. -/
def SameTerm (r : Registry α) (calls : CallMode) (V W : Valuation α) (n : Node) : Prop :=
  ∀ t, LogPdfAt r calls V n t ↔ LogPdfAt r calls W n t

/-- Under values that agree at the references and at the node itself, the term is the same one. -/
theorem SameTerm.of_refs {r : Registry α} {calls : CallMode} {V W : Valuation α} {n : Node}
    {refs : List Identity} (hrefs : Expr.refsOfAll n.role.parts = .ok refs)
    (h : ∀ id ∈ refs, V id = W id) (hself : V n.id = W n.id) : SameTerm r calls V W n := by
  intro t
  unfold LogPdfAt
  have hlaw : ∀ law, n.role.dist? = some law →
      bindDist r (V.environment r calls) law = bindDist r (W.environment r calls) law := by
    intro law hdist
    refine bindDist_congr ?_ h
    cases hrole : n.role with
    | logical e => simp [hrole, Role.dist?] at hdist
    | parameter law' =>
      rw [hrole] at hdist hrefs
      cases hdist
      exact hrefs
    | observed value dist =>
      rw [hrole] at hdist hrefs
      cases hdist
      exact hrefs
  rw [hself]
  constructor
  · rintro ⟨law, d, x, hdist, hd, hx, ht⟩
    exact ⟨law, d, x, hdist, hlaw law hdist ▸ hd, hx, ht⟩
  · rintro ⟨law, d, x, hdist, hd, hx, ht⟩
    exact ⟨law, d, x, hdist, (hlaw law hdist).symm ▸ hd, hx, ht⟩

section TwoRuns

variable {g : Graph} {r : Registry α} {mode : EvaluationMode} {theta theta' : List α}
  {V W : Valuation α}

/-- Solutions for different vectors agree on a node if they agree on the references of a logical
node and on the coordinate of a parameter. -/
theorem NodeEquation.agree {n : Node} {refs : List Identity} (hmode : mode.transformed = false)
    (hV : NodeEquation r mode (g.coordinateOf theta) V n)
    (hW : NodeEquation r mode (g.coordinateOf theta') W n)
    (hrefs : Expr.refsOfAll n.role.parts = .ok refs)
    (hlogical : n.role.isLogical = true → ∀ id ∈ refs, V id = W id)
    (hparameter : n.role.isParameter = true →
      g.coordinateOf theta n.id = g.coordinateOf theta' n.id) :
    V n.id = W n.id := by
  unfold NodeEquation at hV hW
  cases hrole : n.role with
  | observed value dist =>
    rw [hrole] at hV hW
    exact hV.trans hW.symm
  | logical e =>
    rw [hrole] at hV hW hrefs hlogical
    obtain ⟨v, hv, hVn⟩ := hV
    obtain ⟨w, hw, hWn⟩ := hW
    have he : e.eval (V.environment r mode.calls) = e.eval (W.environment r mode.calls) :=
      eval_congr hrefs (hlogical rfl)
    rw [he, hw] at hv
    cases hv
    rw [hVn, hWn]
  | parameter law =>
    simp only [hrole, hmode, Bool.false_eq_true, if_false] at hV hW
    obtain ⟨y, d, x, hy, -, rfl, hVn⟩ := hV
    obtain ⟨z, e, w, hz, -, rfl, hWn⟩ := hW
    have hyz := hparameter (by rw [hrole]; rfl)
    rw [hy, hz, Option.some.injEq] at hyz
    rw [hVn, hWn, hyz]

/-- The references of a node have the same values if all parameters to which paths along parents
lead have the same coordinates. The induction is on nodes, references first: a path from a logical
parent is the rest of a path from the node. -/
theorem Solves.agree_on_refs (hg : g.WellFormed) (hmode : mode.transformed = false)
    (hV : g.Solves r mode theta V) (hW : g.Solves r mode theta' W) {n : Node} (hn : n ∈ g.nodes) :
    ∀ i, g.nodes[i]? = some n →
      (∀ k p, g.Path g.parentLists.parents i k → g.nodes[k]? = some p →
        p.role.isParameter = true → g.coordinateOf theta p.id = g.coordinateOf theta' p.id) →
      ∀ refs, Expr.refsOfAll n.role.parts = .ok refs → ∀ id ∈ refs, V id = W id := by
  refine hg.node_induction (P := fun n => ∀ i, g.nodes[i]? = some n →
    (∀ k p, g.Path g.parentLists.parents i k → g.nodes[k]? = some p →
      p.role.isParameter = true → g.coordinateOf theta p.id = g.coordinateOf theta' p.id) →
    ∀ refs, Expr.refsOfAll n.role.parts = .ok refs → ∀ id ∈ refs, V id = W id) ?_ n hn
  intro n hn refs hrefs ih i hi hpaths refs' hrefs' id hid
  rw [hrefs] at hrefs'
  cases hrefs'
  obtain ⟨k, p, hk, hp, rfl⟩ := hg.parent_of_ref hn hrefs hid
  rw [← parents_of_getElem? hi] at hk
  have hmem := List.mem_of_getElem? hp
  obtain ⟨refs', hrefs', -⟩ := hg.linked p hmem
  apply NodeEquation.agree hmode (hV.equations p hmem) (hW.equations p hmem) hrefs'
  · intro hlogical
    apply ih p hmem hid k hp _ refs' hrefs'
    intro l q hpath
    exact hpaths l q (.step hk hp hlogical hpath)
  · intro hparameter
    exact hpaths k p (.edge hk) hp hparameter

/-- A stochastic node has the same term in both runs if the coordinates of its closest stochastic
ancestors, and its own one, are the same. -/
theorem sameTerm_of_stochasticParents (hg : g.WellFormed) (hmode : mode.transformed = false)
    (hV : g.Solves r mode theta V) (hW : g.Solves r mode theta' W) {j : Nat} {n : Node}
    (hn : g.nodes[j]? = some n) (hstochastic : n.isStochastic = true)
    (h : ∀ k ∈ g.parameters, k = j ∨ k ∈ g.stochasticParents j →
      g.coordinate? theta k = g.coordinate? theta' k) : SameTerm r mode.calls V W n := by
  have hmem := List.mem_of_getElem? hn
  have hcoordinate : ∀ k p, g.nodes[k]? = some p → p.role.isParameter = true →
      k = j ∨ k ∈ g.stochasticParents j →
      g.coordinateOf theta p.id = g.coordinateOf theta' p.id := by
    intro k p hp hparameter hk
    unfold coordinateOf
    rw [hg.index?_of_getElem? hp]
    exact h k ((hg.mem_parameters_iff hp).mpr hparameter) hk
  obtain ⟨refs, hrefs, -⟩ := hg.linked n hmem
  apply SameTerm.of_refs hrefs
  · apply hV.agree_on_refs hg hmode hW hmem j hn _ refs hrefs
    intro k p hpath hp hparameter
    apply hcoordinate k p hp hparameter
    right
    apply hg.mem_stochasticParents_iff.mpr
    exact ⟨hpath, p, hp, isStochastic_of_isParameter hparameter⟩
  · apply NodeEquation.agree hmode (hV.equations n hmem) (hW.equations n hmem) hrefs
    · intro hlogical
      rw [not_isLogical_of_isStochastic hstochastic] at hlogical
      cases hlogical
    · intro hparameter
      exact hcoordinate j n hn hparameter (Or.inl rfl)

end TwoRuns

/-- If terms are computed, every stochastic node has one. -/
theorem Accounts.exists_term {g : Graph} (hg : g.WellFormed) {r : Registry α}
    {mode : EvaluationMode} {theta : List α} {ev : Evaluation α} (h : g.Accounts r mode theta ev)
    (hscore : mode.score = true) {n : Node} (hn : n ∈ g.nodes) (hstochastic : n.isStochastic = true) :
    ∃ t, LogPdfAt r mode.calls (g.valuation ev.slots) n t := by
  obtain ⟨i, hi⟩ := List.getElem?_of_mem hn
  have hselect : ∀ p : Node → Bool, p n = true → i ∈ g.select p := by
    intro p hp
    apply List.mem_filter.mpr
    rw [hi]
    exact ⟨hg.mem_order hi, hp⟩
  have hsum : ∀ p total, p n = true →
      g.IsSum (g.select p) (LogPdfAt r mode.calls (g.valuation ev.slots)) total →
      ∃ t, LogPdfAt r mode.calls (g.valuation ev.slots) n t := by
    rintro p total hp ⟨terms, hterms, -⟩
    obtain ⟨t, -, n', hn', ht⟩ := exists_of_forall₂ hterms (hselect p hp)
    rw [hi, Option.some.injEq] at hn'
    exact ⟨t, hn' ▸ ht⟩
  cases hrole : n.role with
  | logical e =>
    rw [Node.isStochastic, hrole] at hstochastic
    cases hstochastic
  | parameter law =>
    apply hsum _ _ _ h.prior
    simp [hscore, hrole, Role.isParameter]
  | observed value dist =>
    apply hsum _ _ _ h.likelihood
    simp [hscore, hrole, Role.isObserved, hstochastic]

/-! ## The main theorem -/

/-- Markov blankets of parameters are sound. If only the coordinate of a parameter `v` changes, the
terms of all other stochastic nodes but the closest stochastic descendants of `v` stay. The terms of
`v` and of these descendants depend only on the coordinates of `v` and of its Markov blanket. Each
of these terms exists if terms are computed. -/
theorem markovBlanket_of_build {β : Type} [Scalar β] {m : Model} {bindings : Table String Datum}
    {r₀ : Registry β} {g : Graph} (hg : (build m bindings r₀).collect.1 = .ok g) {r : Registry α}
    {mode : EvaluationMode} (hmode : mode.transformed = false) {theta theta' : List α}
    {ev ev' : Evaluation α} (h : g.evaluate r mode theta = .ok ev)
    (h' : g.evaluate r mode theta' = .ok ev') {v : Nat} (hv : v ∈ g.parameters) :
    (mode.score = true → ∀ n ∈ g.nodes, n.isStochastic = true →
      ∃ t, LogPdfAt r mode.calls (g.valuation ev.slots) n t) ∧
    ((∀ k ∈ g.parameters, k ≠ v → g.coordinate? theta k = g.coordinate? theta' k) →
      ∀ j n, g.nodes[j]? = some n → n.isStochastic = true → j ≠ v → j ∉ g.stochasticChildren v →
        SameTerm r mode.calls (g.valuation ev.slots) (g.valuation ev'.slots) n) ∧
    ((∀ k ∈ g.parameters, k = v ∨ k ∈ g.markovBlanket v →
        g.coordinate? theta k = g.coordinate? theta' k) →
      ∀ j n, g.nodes[j]? = some n → j = v ∨ j ∈ g.stochasticChildren v →
        SameTerm r mode.calls (g.valuation ev.slots) (g.valuation ev'.slots) n) := by
  have hwf := wellFormed_of_build hg
  have haccounts := Accounts.of_evaluate hwf h
  have hsolves' := (Accounts.of_evaluate hwf h').solves
  refine ⟨fun hscore n hn => haccounts.exists_term hwf hscore hn, ?_, ?_⟩
  · intro hagree j n hn hstochastic hjv hchild
    apply sameTerm_of_stochasticParents hwf hmode haccounts.solves hsolves' hn hstochastic
    intro k hk hkj
    apply hagree k hk
    rintro rfl
    rcases hkj with rfl | hparent
    · exact hjv rfl
    · exact hchild (hwf.mem_stochasticChildren_of_parents hn hstochastic hparent)
  · intro hagree j n hn hj
    have hstochastic : n.isStochastic = true := by
      rcases hj with rfl | hchild
      · rw [hwf.parameters, List.mem_filter, hn] at hv
        exact isStochastic_of_isParameter hv.2
      · obtain ⟨-, n', hn', hstochastic⟩ := hwf.mem_stochasticChildren_iff.mp hchild
        rw [hn, Option.some.injEq] at hn'
        exact hn' ▸ hstochastic
    apply sameTerm_of_stochasticParents hwf hmode haccounts.solves hsolves' hn hstochastic
    intro k hk hkj
    apply hagree k hk
    by_cases hkv : k = v
    · exact Or.inl hkv
    · right
      apply hwf.mem_markovBlanket_iff.mpr
      refine ⟨hkv, ?_⟩
      rcases hj with rfl | hchild
      · exact Or.inl (hkj.resolve_left hkv)
      · rcases hkj with rfl | hparent
        · exact Or.inr (Or.inl hchild)
        · exact Or.inr (Or.inr ⟨j, hchild, hparent⟩)

/-- A model with the parameters `a`, `b` and `c`, and with an observation of `a + b`. -/
def forkModel : Model where
  statements :=
    [.sample [] (.var (.text "a"))
      (.dist { name := .text "dnorm", params := [.literal (.int 0), .literal (.int 1)] }),
    .sample [] (.var (.text "b"))
      (.dist { name := .text "dnorm", params := [.literal (.int 0), .literal (.int 1)] }),
    .sample [] (.var (.text "c"))
      (.dist { name := .text "dnorm", params := [.literal (.int 0), .literal (.int 1)] }),
    .assign [] (.var (.text "z")) (.add (.var (.text "a")) (.var (.text "b"))),
    .sample [] (.var (.text "y"))
      (.dist { name := .text "dnorm", params := [.var (.text "z"), .literal (.int 1)] })]

/-- The data are the only constants of the model. -/
theorem constants_forkModel :
    Folding.constants (Registry.builtin : Registry Dual).foldingFunctions forkModel.statements
      shiftBindings = .ok (shiftBindings.values.map fun n => n.map Scalar.ofDouble) := by
  unfold Folding.constants Folding.saturate
  rfl

/-- A change of `a` does not reach the terms of `b` and `c`. A change of `c`, which is not in the
blanket of `a`, does not reach the terms of `a` and of the observation. -/
theorem markovBlanket_forkModel :
    let r : Registry Dual := Registry.builtin
    let mode : EvaluationMode := { transformed := false }
    let zero : Dual := Scalar.ofInt 0
    let one : Dual := Scalar.ofInt 1
    ∃ g ev ev₁ ev₂, (build forkModel shiftData r).collect.1 = .ok g ∧
      g.evaluate r mode [zero, zero, zero] = .ok ev ∧
      g.evaluate r mode [one, zero, zero] = .ok ev₁ ∧
      g.evaluate r mode [zero, zero, one] = .ok ev₂ ∧
      g.stochasticChildren 0 = [4] ∧ g.markovBlanket 0 = [1, 4] ∧
      (∀ n, g.nodes[1]? = some n ∨ g.nodes[2]? = some n →
        SameTerm r .direct (g.valuation ev.slots) (g.valuation ev₁.slots) n) ∧
      ∀ n, g.nodes[0]? = some n ∨ g.nodes[4]? = some n →
        SameTerm r .direct (g.valuation ev.slots) (g.valuation ev₂.slots) n := by
  intro r mode zero one
  obtain ⟨g, hg, hparameters, hchildren, hblanket, hstochastic, ev, hev, ev₁, hev₁, ev₂, hev₂⟩ :
      ∃ g, (build forkModel shiftData r).collect.1 = .ok g ∧ g.parameters = [0, 1, 2] ∧
        g.stochasticChildren 0 = [4] ∧ g.markovBlanket 0 = [1, 4] ∧
        g.nodes.map (·.isStochastic) = [true, true, true, false, true] ∧
        ∃ ev, g.evaluate r mode [zero, zero, zero] = .ok ev ∧
          ∃ ev₁, g.evaluate r mode [one, zero, zero] = .ok ev₁ ∧
            ∃ ev₂, g.evaluate r mode [zero, zero, one] = .ok ev₂ := by
    rw [build_of_constants flatten_shiftData constants_forkModel]
    decide +kernel
  have hv : 0 ∈ g.parameters := by simp [hparameters]
  have hkind : ∀ {j : Nat} {n : Node}, g.nodes[j]? = some n →
      [true, true, true, false, true][j]? = some n.isStochastic := by
    intro j n hn
    rw [← hstochastic, List.getElem?_map, hn]
    rfl
  have hparameter : ∀ {k : Nat}, k ∈ g.parameters → k = 0 ∨ k = 1 ∨ k = 2 := by
    simp [hparameters]
  have hcoordinate : ∀ (theta : List Dual) (k : Nat),
      g.coordinate? theta k = ([0, 1, 2].idxOf? k).bind (theta[·]?) := by
    intro theta k
    rw [coordinate?, hparameters]
  refine ⟨g, ev, ev₁, ev₂, hg, hev, hev₁, hev₂, hchildren, hblanket, ?_, ?_⟩
  · have hother := (markovBlanket_of_build hg rfl hev hev₁ hv).2.1 fun k hk hk0 => by
      rw [hcoordinate, hcoordinate]
      rcases hparameter hk with rfl | rfl | rfl
      · exact absurd rfl hk0
      · rfl
      · rfl
    rintro n (hn | hn)
    · exact hother 1 n hn (Option.some.inj (hkind hn)).symm (by decide) (by simp [hchildren])
    · exact hother 2 n hn (Option.some.inj (hkind hn)).symm (by decide) (by simp [hchildren])
  · have hblanketed := (markovBlanket_of_build hg rfl hev hev₂ hv).2.2 fun k hk hk0 => by
      rw [hcoordinate, hcoordinate]
      rcases hparameter hk with rfl | rfl | rfl
      · rfl
      · rfl
      · simp [hblanket] at hk0
    rintro n (hn | hn)
    · exact hblanketed 0 n hn (Or.inl rfl)
    · exact hblanketed 4 n hn (Or.inr (by simp [hchildren]))

end BayesGraph.Graph
