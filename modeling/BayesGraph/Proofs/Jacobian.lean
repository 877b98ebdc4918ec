import Mathlib
import BayesGraph.Proofs.Safety
import BayesGraph.Proofs.Transforms

/-!
# The Jacobian of the map to constrained values

An evaluation takes unconstrained coordinates to the values of parameters. Along the order of the
graph, a parameter is placed by the transform of its support, whose bounds are values of nodes
before it. So the value with coordinate `k` depends on no later coordinate, the matrix of partial
derivatives is triangular, and the logarithm of its determinant is the sum of the logarithms that
the transforms contribute, however the bounds depend on earlier parameters.

A partial derivative is about coordinates at which the rest of the graph need not have values.
`constrained` therefore computes the nodes up to a parameter only.
-/

set_option autoImplicit false

namespace BayesGraph.Graph

open Outcome

section Definitions

variable {α : Type} [Scalar α]

/-- The nodes that are visited up to a given one. -/
def upTo (g : Graph) (i : Nat) : List Nat := g.order.takeWhile (· ≠ i) ++ [i]

/-- The value of the parameter with coordinate `k`, computed from the nodes up to it. -/
def constrained (g : Graph) (r : Registry α) (calls : CallMode) (theta : List α) (k : Nat) :
    Option (Value α) := do
  let i ← g.parameters[k]?
  let ev ← ((g.upTo i).foldlM (g.visit r { score := false, calls } theta)
    Evaluation.start).toOption
  ev.slots i

end Definitions

/-! ## Coordinates along the order -/

section Coordinates

variable {α : Type} {g : Graph} {i j k : Nat} {theta theta' : List α}

/-- The nodes that are visited up to a given one are those before it, and that one. -/
theorem WellFormed.upTo_eq (hg : g.WellFormed) {before after : List Nat}
    (horder : g.order = before ++ i :: after) : g.upTo i = before ++ [i] := by
  have hnodup := hg.order.nodup
  rw [horder] at hnodup
  have hbefore : ∀ j ∈ before, decide (j ≠ i) = true := fun j hj =>
    decide_eq_true fun hji =>
      (List.nodup_append.mp hnodup).2.2 j hj i List.mem_cons_self hji
  rw [upTo, horder, List.takeWhile_append_of_pos hbefore,
    List.takeWhile_cons_of_neg (by simp), List.append_nil]

/-- A coordinate belongs to a node with a distribution that is to be sampled. -/
theorem WellFormed.parameter_of_coordinate (hg : g.WellFormed) (hk : g.parameters[k]? = some i) :
    ∃ n law, g.nodes[i]? = some n ∧ n.role = .parameter law := by
  have hmem := List.mem_of_getElem? hk
  rw [hg.parameters, List.mem_filter] at hmem
  cases hn : g.nodes[i]? with
  | none => simp [hn] at hmem
  | some n =>
    rw [hn, Option.any_some] at hmem
    cases hrole : n.role with
    | parameter law => exact ⟨n, law, rfl, hrole⟩
    | observed _ _ | logical _ => simp [hrole, Role.isParameter] at hmem

/-- The parameters before the one with coordinate `k` have the coordinates before `k`. -/
theorem WellFormed.idxOf?_lt (hg : g.WellFormed) {before after : List Nat}
    (horder : g.order = before ++ i :: after) (hk : g.parameters[k]? = some i) (hj : j ∈ before)
    {m : Nat} (hm : g.parameters.idxOf? j = some m) : m < k := by
  have hnodup : g.parameters.Nodup := hg.parameters ▸ hg.order.nodup.filter _
  obtain ⟨hmlt, hmj, -⟩ := List.idxOf?_eq_some_iff.mp hm
  obtain ⟨hklt, hki⟩ := List.getElem?_eq_some_iff.mp hk
  let p (l : Nat) : Bool := (g.nodes[l]?).any (·.role.isParameter)
  have hmem {l : Nat} (hl : l ∈ g.parameters) : p l = true := by
    rw [hg.parameters, List.mem_filter] at hl
    exact hl.2
  obtain ⟨first, rest, hfirst, hjfirst⟩ :
      ∃ first rest, g.parameters = first ++ i :: rest ∧ j ∈ first := by
    refine ⟨before.filter p, after.filter p, ?_,
      List.mem_filter.mpr ⟨hj, hmem (hmj ▸ List.getElem_mem hmlt)⟩⟩
    rw [hg.parameters, horder, List.filter_append,
      List.filter_cons_of_pos (hmem (hki ▸ List.getElem_mem hklt))]
  obtain ⟨n, hn, hnj⟩ := List.getElem_of_mem hjfirst
  have hmn : m = n := by
    refine (List.getElem?_inj hmlt hnodup).mp ?_
    rw [List.getElem?_eq_getElem hmlt, hmj, hfirst, List.getElem?_append_left hn,
      List.getElem?_eq_getElem hn, hnj]
  have hkn : k = first.length := by
    refine (List.getElem?_inj hklt hnodup).mp ?_
    rw [hk, hfirst, List.getElem?_append_right le_rfl, Nat.sub_self]
    rfl
  omega

/-- Up to the node with coordinate `k`, coordinates are the same if those up to `k` are. -/
theorem WellFormed.coordinate?_congr (hg : g.WellFormed) {before after : List Nat}
    (horder : g.order = before ++ i :: after) (hk : g.parameters[k]? = some i)
    (htheta : ∀ m < k, theta'[m]? = theta[m]?) (hj : j ∈ before) :
    g.coordinate? theta' j = g.coordinate? theta j := by
  unfold coordinate?
  cases hm : g.parameters.idxOf? j with
  | none => rfl
  | some m => exact htheta m (hg.idxOf?_lt horder hk hj hm)

/-- The coordinate of a parameter is the one at its place. -/
theorem WellFormed.coordinate?_eq (hg : g.WellFormed) (hk : g.parameters[k]? = some i) :
    g.coordinate? theta i = theta[k]? := by
  have hnodup : g.parameters.Nodup := hg.parameters ▸ hg.order.nodup.filter _
  obtain ⟨hklt, hki⟩ := List.getElem?_eq_some_iff.mp hk
  have hindex : g.parameters.idxOf? i = some k := by
    rw [List.idxOf?_eq_some_iff]
    refine ⟨hklt, hki, fun l hl heq => ?_⟩
    have hlk : l = k := by
      refine (List.getElem?_inj (by omega) hnodup).mp ?_
      rw [hk, List.getElem?_eq_getElem (by omega), heq]
    omega
  unfold coordinate?
  rw [hindex]
  rfl

end Coordinates

/-! ## Runs up to a node -/

section Runs

variable {α : Type} [Scalar α] {g : Graph} {r : Registry α} {mode : EvaluationMode}
  {theta theta' : List α} {ev ev' : Evaluation α} {i k : Nat}

/-- A visit changes the slot of its node only. -/
theorem slots_of_visit_of_ne (h : g.visit r mode theta ev i = .ok ev') {j : Nat} (hj : j ≠ i) :
    ev'.slots j = ev.slots j := by
  cases hn : g.nodes[i]? with
  | none =>
    unfold visit at h
    rw [hn] at h
    cases h
    rfl
  | some n =>
    obtain ⟨v, hv⟩ := slots_of_visit hn h
    rw [hv]
    exact if_neg hj

/-- A run changes the slots of its nodes only. -/
theorem slots_of_run {is : List Nat} (h : is.foldlM (g.visit r mode theta) ev = .ok ev') {j : Nat}
    (hj : j ∉ is) : ev'.slots j = ev.slots j := by
  refine foldlM_invariant (fun d => d.slots j = ev.slots j) h rfl fun i hi d e hd he => ?_
  have hji : j ≠ i := fun heq => hj (heq ▸ hi)
  exact (slots_of_visit_of_ne he hji).trans hd

/-- Without the terms of densities, the value of a node and its derivative are the same. -/
theorem contribution_silent {env : Environment α} {coordinate : Option α} {n : Node}
    {c : Contribution α} (h : contribution r mode env coordinate n = .ok c) :
    contribution r { mode with score := false } env coordinate n =
      .ok { c with prior := [], likelihood := [] } := by
  rw [contribution_eq_ok_iff] at h ⊢
  cases h with
  | logical hrole hv => exact .logical hrole hv
  | @observed value dist terms hrole hterms => exact .observed hrole (by cases dist <;> rfl)
  | parameter hrole hy hd hx _ => exact .parameter hrole hy hd hx rfl

/-- Evaluations with the same values and the same derivatives. -/
def SamePlaces (ev ev' : Evaluation α) : Prop :=
  ev'.slots = ev.slots ∧ ev'.logJacobian = ev.logJacobian

/-- A visit without the terms of densities, at a vector with the same coordinate. -/
theorem visit_silent {ev₀ : Evaluation α} (h : g.visit r mode theta ev i = .ok ev')
    (hcoordinate : g.coordinate? theta' i = g.coordinate? theta i) (hsame : SamePlaces ev ev₀) :
    ∃ ev₁, g.visit r { mode with score := false } theta' ev₀ i = .ok ev₁ ∧ SamePlaces ev' ev₁ := by
  cases hn : g.nodes[i]? with
  | none =>
    unfold visit at h ⊢
    rw [hn] at h ⊢
    cases h
    exact ⟨ev₀, rfl, hsame⟩
  | some n =>
    obtain ⟨c, hc, hadded⟩ := (visit_eq_ok_iff hn).mp h
    refine ⟨⟨ev₀.slots.put i c.value, ev₀.parameters ++ c.parameters, ev₀.logPrior,
      ev₀.logLikelihood, ev'.logJacobian⟩, (visit_eq_ok_iff hn).mpr
      ⟨{ c with prior := [], likelihood := [] }, ?_, rfl, rfl, rfl, rfl, ?_⟩, ?_, rfl⟩
    · rw [hsame.1, hcoordinate]
      exact contribution_silent hc
    · rw [hsame.2]
      exact hadded.jacobian
    · rw [hadded.slots, hsame.1]

/-- A run without the terms of densities, at a vector with the same coordinates. -/
theorem run_silent {is : List Nat} {ev₀ : Evaluation α}
    (h : is.foldlM (g.visit r mode theta) ev = .ok ev')
    (hcoordinate : ∀ i ∈ is, g.coordinate? theta' i = g.coordinate? theta i)
    (hsame : SamePlaces ev ev₀) :
    ∃ ev₁, is.foldlM (g.visit r { mode with score := false } theta') ev₀ = .ok ev₁ ∧
      SamePlaces ev' ev₁ := by
  induction is generalizing ev ev₀ with
  | nil =>
    cases h
    exact ⟨ev₀, rfl, hsame⟩
  | cons i is ih =>
    rw [List.foldlM_cons, bind_eq_ok] at h
    obtain ⟨mid, hmid, h⟩ := h
    obtain ⟨mid₀, hmid₀, hsame⟩ := visit_silent hmid (hcoordinate i List.mem_cons_self) hsame
    obtain ⟨ev₁, hev₁, hsame⟩ :=
      ih h (fun j hj => hcoordinate j (List.mem_cons_of_mem i hj)) hsame
    refine ⟨ev₁, ?_, hsame⟩
    rw [List.foldlM_cons, hmid₀]
    exact hev₁

/-- An evaluation stops at a node with the final values of the nodes before it, adds what the node
contributes under the final values, and goes on. -/
theorem WellFormed.stop_of_evaluate (hg : g.WellFormed) (h : g.evaluate r mode theta = .ok ev)
    {before after : List Nat} (horder : g.order = before ++ i :: after) {n : Node}
    (hn : g.nodes[i]? = some n) :
    ∃ mid c total, before.foldlM (g.visit r mode theta) Evaluation.start = .ok mid ∧
      (∀ j ∈ g.parentLists.parents i, mid.slots j = ev.slots j) ∧
      contribution r mode (g.environment r mode.calls ev.slots) (g.coordinate? theta i) n = .ok c ∧
      ev.slots i = some c.value ∧ addTerms mid.logJacobian c.jacobian = .ok total := by
  have hnodup := hg.order.nodup
  have hfirst := hg.order.parents_first
  rw [horder] at hnodup hfirst
  obtain ⟨-, hafter, hdisjoint⟩ := List.nodup_append.mp hnodup
  unfold evaluate at h
  rw [horder] at h
  obtain ⟨mid, hmid, hrest⟩ := foldlM_append_eq_ok.mp h
  have hparents : ∀ j ∈ g.parentLists.parents i, mid.slots j = ev.slots j := by
    intro j hj
    have hj := ParentLists.parents_of_parentsFirst hfirst j hj
    rw [List.nil_append] at hj
    exact (slots_of_run hrest fun hmem => hdisjoint j hj j hmem rfl).symm
  rw [List.foldlM_cons, bind_eq_ok] at hrest
  obtain ⟨next, hnext, hrest⟩ := hrest
  obtain ⟨c, hc, hadded⟩ := (visit_eq_ok_iff hn).mp hnext
  refine ⟨mid, c, next.logJacobian, hmid, hparents, ?_, ?_, hadded.jacobian⟩
  · rw [← contribution_slots_congr hg hn hparents]
    exact hc
  · rw [slots_of_run hrest (List.nodup_cons.mp hafter).1, hadded.slots]
    exact if_pos rfl

/-- Unconstrained coordinates, without the terms of densities. -/
theorem silent_eq (htransformed : mode.transformed = true) :
    { mode with score := false } = ({ score := false, calls := mode.calls } : EvaluationMode) := by
  obtain ⟨transformed, score, calls⟩ := mode
  cases htransformed
  rfl

/-- The value with coordinate `k` stands in its slot after the run up to its node. -/
theorem constrained_of_run {calls : CallMode} (hk : g.parameters[k]? = some i)
    (h : (g.upTo i).foldlM (g.visit r { score := false, calls } theta) Evaluation.start = .ok ev) :
    g.constrained r calls theta k = ev.slots i := by
  unfold constrained
  rw [hk]
  change ((g.upTo i).foldlM (g.visit r { score := false, calls } theta)
    Evaluation.start).toOption.bind _ = _
  rw [h]
  rfl

/-- The value with coordinate `k` does not depend on later coordinates. -/
theorem WellFormed.constrained_congr (hg : g.WellFormed) {calls : CallMode}
    (htheta : ∀ m ≤ k, theta'[m]? = theta[m]?) :
    g.constrained r calls theta' k = g.constrained r calls theta k := by
  unfold constrained
  cases hk : g.parameters[k]? with
  | none => rfl
  | some i =>
    have hi : i ∈ g.order := by
      have hmem := List.mem_of_getElem? hk
      rw [hg.parameters] at hmem
      exact (List.mem_filter.mp hmem).1
    obtain ⟨before, after, horder⟩ := List.append_of_mem hi
    have hvisit : ∀ j ∈ g.upTo i, ∀ ev : Evaluation α,
        g.visit r { score := false, calls } theta' ev j =
          g.visit r { score := false, calls } theta ev j := by
      intro j hj ev
      have hcoordinate : g.coordinate? theta' j = g.coordinate? theta j := by
        rw [hg.upTo_eq horder, List.mem_append, List.mem_singleton] at hj
        rcases hj with hj | rfl
        · exact hg.coordinate?_congr horder hk (fun m hm => htheta m hm.le) hj
        · rw [hg.coordinate?_eq hk, hg.coordinate?_eq hk, htheta k le_rfl]
      unfold visit
      rw [hcoordinate]
    have hrun : (g.upTo i).foldlM (g.visit r { score := false, calls } theta') Evaluation.start =
        (g.upTo i).foldlM (g.visit r { score := false, calls } theta) Evaluation.start :=
      foldlM_congr hvisit
    exact congrArg (fun run => run.toOption.bind fun ev => ev.slots i) hrun

end Runs

/-! ## The derivative in one coordinate -/

section Smooth

open ExactReals

variable {g : Graph} {r : Registry ℝ} {mode : EvaluationMode} {theta theta' : List ℝ}
  {ev : Evaluation ℝ} {i k : Nat} {F D : ℝ → ℝ}

/-- If a number can be added to a sum, every number can. -/
theorem exists_add_scalar {sum total : Value ℝ} {a : ℝ} (h : sum.add (.scalar a) = .ok total)
    (b : ℝ) : ∃ total', sum.add (.scalar b) = .ok total' := by
  change sum.add (.array .density (.scalar a)) = .ok total at h
  change ∃ total', sum.add (.array .density (.scalar b)) = .ok total'
  rw [Value.add_array_right] at h ⊢
  simp only [Value.combine, bind_eq_ok, pure_eq_ok] at h ⊢
  obtain ⟨s, hs, t, ht, u, hu, -⟩ := h
  cases ht
  have hjoin := (Tensor.zipWith?_eq_some_iff.mp (Value.zip_eq_ok_iff.mp hu)).1
  obtain ⟨w, hw⟩ := Tensor.exists_zipWith?
    ((sum.origin.join .density).binary ((· + ·) : ℝ → ℝ → ℝ)) (b := .scalar b) hjoin
  exact ⟨_, s, hs, _, rfl, w, Value.zip_eq_ok_iff.mpr hw, rfl⟩

/-- A smooth transform takes a coordinate to its value, with one term. -/
theorem locate_of_smooth {calls : CallMode} {d : BoundDist ℝ} {f : Transform ℝ} {y : ℝ}
    (hf : d.transform = .ok f) (hsmooth : f.map.Smooth F D) :
    locate { score := false, calls } d y =
      .ok (.scalar (F y), [.scalar (Real.log |D y|)]) := by
  unfold locate BoundDist.toConstrained
  rw [hf]
  simp only [ok_bind, hsmooth.backward, hsmooth.logJacobian, if_pos]
  rfl

/-- The values of the nodes before the parameter with coordinate `k` being fixed, its constrained
value is the function `F` of its coordinate, and the derivative `D` of this function has no
zeros. -/
structure SmoothAt (g : Graph) (r : Registry ℝ) (calls : CallMode) (theta : List ℝ) (k : Nat)
    (F D : ℝ → ℝ) : Prop where
  value : ∀ theta', (∀ m < k, theta'[m]? = theta[m]?) → ∀ y, theta'[k]? = some y →
    g.constrained r calls theta' k = some (.scalar (F y))
  derivative : ∀ y, HasDerivAt F (D y) y
  ne_zero : ∀ y, D y ≠ 0

/-- The supports of all parameters are proper where their bounds have values. -/
def ProperSupports (g : Graph) (r : Registry ℝ) (calls : CallMode) (slots : Slots ℝ) : Prop :=
  ∀ n ∈ g.nodes, ∀ law, n.role = .parameter law → ∀ d,
    bindDist r (g.environment r calls slots) law = .ok d → ∀ s, d.support = .ok s → s.Proper

/-- Where an evaluation succeeds, a parameter with a proper support and a number as its value
depends smoothly on its coordinate. The value and the term of the evaluation are those of this
dependence. -/
theorem exists_smoothAt (hg : g.WellFormed) (htransformed : mode.transformed = true)
    (h : g.evaluate r mode theta = .ok ev) (hproper : g.ProperSupports r mode.calls ev.slots)
    (hk : g.parameters[k]? = some i) (hscalar : ∀ x, ev.slots i = some x → x.shape = []) :
    ∃ F D y, g.SmoothAt r mode.calls theta k F D ∧ theta[k]? = some y ∧
      ev.slots i = some (.scalar (F y)) ∧
      ∀ n t, g.nodes[i]? = some n →
        LogJacobianAt r mode.calls (g.coordinateOf theta) (g.valuation ev.slots) n t →
        t = .scalar (Real.log |D y|) := by
  obtain ⟨n, law, hn, hrole⟩ := hg.parameter_of_coordinate hk
  obtain ⟨before, after, horder⟩ := List.append_of_mem (hg.mem_order hn)
  obtain ⟨mid, c, total, hmid, hparents, hc, hvalue, htotal⟩ := hg.stop_of_evaluate h horder hn
  rw [hg.coordinate?_eq hk] at hc
  cases contribution_eq_ok_iff.mp hc with
  | logical hrole' _ | observed hrole' _ => cases hrole.symm.trans hrole'
  | @parameter law' y d x slopes terms hrole' hy hd hx _ =>
    cases hrole.symm.trans hrole'
    have hlocate := locate_eq_ok hx
    rw [if_pos htransformed] at hlocate
    obtain ⟨f, t, hf, hback, hjac, rfl⟩ := hlocate
    obtain ⟨s, hs, hf'⟩ := bind_eq_ok.mp hf
    obtain ⟨F, D, hsmooth⟩ := Transform.exists_smooth_of_ofSupport hf'
      (hproper n (List.mem_of_getElem? hn) law hrole d hd s hs) hback (hscalar x hvalue)
    rw [hsmooth.backward, Except.ok.injEq] at hback
    rw [hsmooth.logJacobian, Except.ok.injEq] at hjac
    subst hback
    subst hjac
    refine ⟨F, D, y, ⟨?_, hsmooth.derivative, hsmooth.ne_zero⟩, hy, hvalue, ?_⟩
    · -- Another coordinate leaves the run before the node as it was, so the value is that of the
      -- transform.
      intro theta' htheta' y' hy'
      obtain ⟨mid', hmid', hslots, hjacobian⟩ := run_silent hmid
        (fun j hj => hg.coordinate?_congr horder hk htheta' hj) ⟨rfl, rfl⟩
      rw [silent_eq htransformed] at hmid'
      obtain ⟨total', htotal'⟩ := exists_add_scalar (foldlM_singleton.symm.trans htotal)
        (Real.log |D y'|)
      have hc' : contribution r { score := false, calls := mode.calls }
          (g.environment r mode.calls mid'.slots) (some y') n =
          .ok ⟨.scalar (F y'), [(n.id, .scalar (F y'))], [], [], [.scalar (Real.log |D y'|)]⟩ := by
        rw [contribution_slots_congr hg hn fun j hj => (congrFun hslots j).trans (hparents j hj)]
        exact contribution_eq_ok_iff.mpr
          (.parameter hrole rfl hd (locate_of_smooth hf hsmooth) rfl)
      rw [← hy', ← hg.coordinate?_eq hk] at hc'
      rw [← hjacobian] at htotal'
      have hvisit : g.visit r { score := false, calls := mode.calls } theta' mid' i =
          .ok ⟨mid'.slots.put i (.scalar (F y')), mid'.parameters ++ [(n.id, .scalar (F y'))],
            mid'.logPrior, mid'.logLikelihood, total'⟩ :=
        (visit_eq_ok_iff hn).mpr ⟨_, hc', rfl, rfl, rfl, rfl, foldlM_singleton.trans htotal'⟩
      have hrun := foldlM_append_eq_ok.mpr ⟨mid', hmid', foldlM_singleton.trans hvisit⟩
      rw [← hg.upTo_eq horder] at hrun
      rw [constrained_of_run hk hrun]
      exact if_pos rfl
    · intro n' t hn' ht
      cases hn.symm.trans hn'
      have hcoordinate : g.coordinateOf theta n.id = some y := by
        rw [(hg.at_node theta ev.slots hn).1, hg.coordinate?_eq hk, hy]
      exact ht.unique
        ⟨law, d, y, f, by rw [hrole]; rfl, hd, hcoordinate, hf, hsmooth.logJacobian y⟩

/-- The sum of terms that are numbers is the sum of the numbers. -/
theorem real?_of_addTerms {terms : List ℝ} {sum total : Value ℝ} {a : ℝ}
    (hsum : sum = .real a ∨ sum = .scalar a)
    (h : addTerms sum (terms.map Value.scalar) = .ok total) :
    total.real? = some (a + terms.sum) := by
  induction terms generalizing sum a with
  | nil =>
    cases h
    rcases hsum with rfl | rfl
    · simp [Value.real?, Value.real]
    · simp
  | cons b terms ih =>
    have hadd : sum.add (.scalar b) = .ok (.scalar (a + b)) := by
      rcases hsum with rfl | rfl <;> rfl
    unfold addTerms at h
    rw [List.map_cons, List.foldlM_cons, hadd] at h
    rw [ih (Or.inr rfl) h, List.sum_cons, add_assoc]

end Smooth

/-! ## The main theorem -/

/-- The map from vectors of unconstrained coordinates to vectors of constrained values. -/
noncomputable def constrain (g : Graph) (r : Registry ℝ) (calls : CallMode)
    (x : Fin g.dimension → ℝ) (k : Fin g.dimension) : ℝ :=
  ((g.constrained r calls (List.ofFn x) k).bind Value.real?).getD 0

section Main

variable {g : Graph} {r : Registry ℝ} {mode : EvaluationMode} {x : Fin g.dimension → ℝ}
  {ev : Evaluation ℝ}

/-- The constrained value with coordinate `k` is the same for vectors that agree up to `k`. -/
theorem WellFormed.constrained_ofFn_congr (hg : g.WellFormed) {calls : CallMode}
    {k : Fin g.dimension} {y z : Fin g.dimension → ℝ} (hyz : ∀ j ≤ k, y j = z j) :
    g.constrained r calls (List.ofFn y) k = g.constrained r calls (List.ofFn z) k := by
  refine hg.constrained_congr fun m hm => ?_
  have hmlt : m < g.dimension := lt_of_le_of_lt hm k.isLt
  simp only [List.getElem?_ofFn, hmlt, dif_pos, hyz ⟨m, hmlt⟩ hm]

/-- Where an evaluation succeeds, all parameters depend smoothly on their coordinates, and the
values and terms of the evaluation are those of this dependence. -/
theorem exists_smooth (hg : g.WellFormed) (htransformed : mode.transformed = true)
    (h : g.evaluate r mode (List.ofFn x) = .ok ev) (hscalar : ∀ p ∈ ev.parameters, p.2.shape = [])
    (hproper : g.ProperSupports r mode.calls ev.slots) :
    ∃ F D : Fin g.dimension → ℝ → ℝ,
      (∀ k : Fin g.dimension, g.SmoothAt r mode.calls (List.ofFn x) k (F k) (D k)) ∧
      ev.parameters = g.parameterNames.zip (List.ofFn fun k => Value.scalar (F k (x k))) ∧
      ev.logJacobian.real? = some (∑ k, Real.log |D k (x k)|) := by
  have hlisted := parameters_of_evaluate hg h
  obtain ⟨hlength, hget⟩ := List.forall₂_iff_get.mp hlisted
  have hat (k : Fin g.dimension) : ∃ F D, g.SmoothAt r mode.calls (List.ofFn x) k F D ∧
      ev.slots g.parameters[k] = some (.scalar (F (x k))) ∧
      ∀ n t, g.nodes[g.parameters[k]]? = some n →
        LogJacobianAt r mode.calls (g.coordinateOf (List.ofFn x)) (g.valuation ev.slots) n t →
        t = .scalar (Real.log |D (x k)|) := by
    have hk : g.parameters[k.val]? = some g.parameters[k] := List.getElem?_eq_getElem k.isLt
    obtain ⟨p, hp, -, hslot⟩ := exists_of_forall₂ hlisted (List.getElem_mem k.isLt)
    obtain ⟨F, D, y, hsmooth, hy, hvalue, hterm⟩ := exists_smoothAt hg htransformed h hproper hk
      fun v hv => by
        have hpv : some p.2 = some v := hslot.symm.trans hv
        cases hpv
        exact hscalar p hp
    have hxy : x k = y := by simpa [List.getElem?_ofFn] using hy
    subst hxy
    exact ⟨F, D, hsmooth, hvalue, hterm⟩
  choose F D hsmooth hvalue hterm using hat
  refine ⟨F, D, hsmooth, List.zip_of_prod ?_ ?_, ?_⟩
  · exact (filterMap_of_forall₂ (hlisted.imp fun _ _ hip => hip.1)).symm
  · refine List.ext_getElem (by simpa [dimension] using hlength.symm) fun k hk hk' => ?_
    have hkdim : k < g.dimension := by simpa using hk'
    have hslot := (hget k hkdim (by simpa using hk)).2
    rw [List.getElem_map, List.getElem_ofFn]
    exact Option.some.inj (hslot.symm.trans (hvalue ⟨k, hkdim⟩))
  · obtain ⟨terms, hterms, htotal⟩ := (Accounts.of_evaluate hg h).jacobian
    have hselect : g.select (fun n => mode.transformed && n.role.isParameter) = g.parameters := by
      simp only [select, htransformed, Bool.true_and, hg.parameters]
    rw [hselect] at hterms
    obtain ⟨htermslength, htermsget⟩ := List.forall₂_iff_get.mp hterms
    have heq : terms = (List.ofFn fun k => Real.log |D k (x k)|).map Value.scalar := by
      refine List.ext_getElem (by simpa [dimension] using htermslength.symm) fun k hk hk' => ?_
      have hkdim : k < g.dimension := by simpa using hk'
      obtain ⟨n, hn, hjac⟩ := htermsget k hkdim hk
      rw [List.getElem_map, List.getElem_ofFn]
      exact hterm ⟨k, hkdim⟩ n _ hn hjac
    rw [heq] at htotal
    rw [real?_of_addTerms (Or.inl rfl) htotal, List.sum_ofFn]
    simp

/-- A matrix of partial derivatives of a map of which no component depends on later coordinates has
the product of the diagonal as its determinant. -/
theorem det_of_triangular {n : Nat} {f : (Fin n → ℝ) → Fin n → ℝ} {x D : Fin n → ℝ}
    {J : Matrix (Fin n) (Fin n) ℝ}
    (hf : ∀ k y z, (∀ j ≤ k, y j = z j) → f y k = f z k)
    (hD : ∀ k, HasDerivAt (fun t => f (Function.update x k t) k) (D k) (x k))
    (hJ : ∀ k j, HasDerivAt (fun t => f (Function.update x j t) k) (J k j) (x j)) :
    J.det = ∏ k, D k := by
  have hdiagonal (k : Fin n) : J k k = D k := (hJ k k).unique (hD k)
  have htriangular : J.IsLowerTriangular := by
    intro k j hkj
    have hlt : k < j := hkj
    have hconst (t : ℝ) : f (Function.update x j t) k = f x k :=
      hf k _ _ fun i hi => Function.update_of_ne (ne_of_lt (lt_of_le_of_lt hi hlt)) _ _
    have hzero : HasDerivAt (fun t => f (Function.update x j t) k) 0 (x j) := by
      simp only [hconst]
      exact hasDerivAt_const _ _
    exact (hJ k j).unique hzero
  rw [Matrix.det_of_isLowerTriangular J htriangular]
  exact Finset.prod_congr rfl fun k _ => hdiagonal k

/-- Over the exact reals, let an evaluation of a built graph at unconstrained coordinates succeed,
with numbers as the values of the parameters and without a support between a number and itself.

The values of the parameters are those of `constrain`. The value with coordinate `k` depends on no
later coordinate. It has a derivative in its own coordinate, which is not zero, and the logarithms
of the absolute values of these derivatives add up to the log-Jacobian of the evaluation. So the
log-Jacobian is the logarithm of the absolute determinant of the matrix of partial derivatives. The
bounds of supports can be any functions of earlier nodes, and the graph may have been built over
other scalars. -/
theorem logJacobian_of_build {β : Type} [Scalar β] {m : Model} {bindings : Table String Datum}
    {r₀ : Registry β} (hg : (build m bindings r₀).collect.1 = .ok g)
    (htransformed : mode.transformed = true) (h : g.evaluate r mode (List.ofFn x) = .ok ev)
    (hscalar : ∀ p ∈ ev.parameters, p.2.shape = [])
    (hproper : g.ProperSupports r mode.calls ev.slots) :
    ev.parameters =
        g.parameterNames.zip (List.ofFn fun k => Value.scalar (g.constrain r mode.calls x k)) ∧
      (∀ (k : Fin g.dimension) (y z : Fin g.dimension → ℝ), (∀ j ≤ k, y j = z j) →
        g.constrained r mode.calls (List.ofFn y) k = g.constrained r mode.calls (List.ofFn z) k) ∧
      ∃ D : Fin g.dimension → ℝ,
        (∀ k : Fin g.dimension,
          (∀ t, g.constrained r mode.calls (List.ofFn (Function.update x k t)) k =
            some (.scalar (g.constrain r mode.calls (Function.update x k t) k))) ∧
          HasDerivAt (fun t => g.constrain r mode.calls (Function.update x k t) k) (D k) (x k) ∧
          D k ≠ 0) ∧
        ev.logJacobian.real? = some (∑ k, Real.log |D k|) ∧
        ∀ J : Matrix (Fin g.dimension) (Fin g.dimension) ℝ,
          (∀ k j, HasDerivAt (fun t => g.constrain r mode.calls (Function.update x j t) k) (J k j)
            (x j)) →
          ev.logJacobian.real? = some (Real.log |J.det|) := by
  have hwf := wellFormed_of_build hg
  obtain ⟨F, D, hsmooth, hparameters, hsum⟩ := exists_smooth hwf htransformed h hscalar hproper
  have hvalue (k : Fin g.dimension) (t : ℝ) :
      g.constrained r mode.calls (List.ofFn (Function.update x k t)) k =
        some (.scalar (F k t)) := by
    refine (hsmooth k).value _ (fun m hm => ?_) t (by simp)
    have hmlt : m < g.dimension := hm.trans k.isLt
    have hne : (⟨m, hmlt⟩ : Fin g.dimension) ≠ k := Fin.ne_of_lt hm
    simp only [List.getElem?_ofFn, hmlt, dif_pos, Function.update_of_ne hne]
  have hconstrain (k : Fin g.dimension) (t : ℝ) :
      g.constrain r mode.calls (Function.update x k t) k = F k t := by
    unfold constrain
    rw [hvalue]
    rfl
  have hself (k : Fin g.dimension) : g.constrain r mode.calls x k = F k (x k) := by
    rw [← hconstrain, Function.update_eq_self]
  have hderivative (k : Fin g.dimension) :
      HasDerivAt (fun t => g.constrain r mode.calls (Function.update x k t) k) (D k (x k))
        (x k) := by
    simp only [hconstrain]
    exact (hsmooth k).derivative (x k)
  refine ⟨?_, fun k y z hyz => hwf.constrained_ofFn_congr hyz, fun k => D k (x k),
    fun k => ⟨fun t => ?_, hderivative k, (hsmooth k).ne_zero (x k)⟩, hsum, fun J hJ => ?_⟩
  · simp only [hself]
    exact hparameters
  · rw [hvalue, hconstrain]
  · have hdet : J.det = ∏ k, D k (x k) := by
      refine det_of_triangular (fun k y z hyz => ?_) hderivative hJ
      unfold constrain
      rw [hwf.constrained_ofFn_congr hyz]
    rw [hsum, hdet, Finset.abs_prod, Real.log_prod]
    exact fun k _ => abs_ne_zero.mpr ((hsmooth k).ne_zero (x k))

end Main

/-- A parameter `a` between 0 and 1, and a parameter `b` between `a` and a logical node. -/
def intervalModel : Model where
  statements :=
    [.sample [] (.var (.text "a"))
      (.dist { name := .text "dunif", params := [.literal (.int 0), .literal (.int 1)] }),
    .assign [] (.var (.text "s")) (.add (.var (.text "a")) (.literal (.int 1))),
    .sample [] (.var (.text "b"))
      (.dist { name := .text "dunif", params := [.var (.text "a"), .var (.text "s")] })]

/-- The graph of the model. -/
def intervalGraph : Graph where
  nodes :=
    [{ id := ⟨"a", []⟩
       role := .parameter
        { name := .text "dunif", params := [.literal (.int 0), .literal (.int 1)] }
       support := some .interval
       statement := some "a ~ dunif(0, 1)" },
    { id := ⟨"s", []⟩
      role := .logical (.add (.ref ⟨"a", []⟩) (.literal (.int 1)))
      parents := [0]
      statement := some "s <- a + 1" },
    { id := ⟨"b", []⟩
      role := .parameter
        { name := .text "dunif", params := [.ref ⟨"a", []⟩, .ref ⟨"s", []⟩] }
      parents := [0, 1]
      support := some .interval
      statement := some "b ~ dunif(a, s)" }]
  order := [0, 1, 2]
  parameters := [0, 2]

/-- The model is built without data, as the graph. -/
theorem build_intervalModel :
    (build intervalModel Table.empty (Registry.builtin : Registry Dual)).collect.1 =
      .ok intervalGraph := by
  have hdata : Bindings.flatten Table.empty = .ok ⟨Table.empty, ⟨[]⟩⟩ := rfl
  have hconstants : Folding.constants (Registry.builtin : Registry Dual).foldingFunctions
      intervalModel.statements ⟨Table.empty, ⟨[]⟩⟩ = .ok Table.empty := by
    unfold Folding.constants Folding.saturate
    rfl
  rw [build_of_constants hdata hconstants]
  with_unfolding_all rfl

/-- The values of the model at zero: the first parameter is one half, and so on. -/
theorem evaluate_intervalGraph :
    ∃ ev b, intervalGraph.evaluate (Registry.builtin : Registry ℝ) { score := false }
        (List.ofFn fun _ : Fin intervalGraph.dimension => (0 : ℝ)) = .ok ev ∧
      ev.slots = ((Slots.empty.put 0 (.scalar (Real.sigmoid 0))).put 1
        (.scalar (Real.sigmoid 0 + Scalar.ofInt 1))).put 2 (.scalar b) ∧
      ev.parameters = [(⟨"a", []⟩, .scalar (Real.sigmoid 0)), (⟨"b", []⟩, .scalar b)] :=
  ⟨_, _, rfl, rfl, rfl⟩

/-- Neither 0 and 1 nor `a` and `a + 1` are the same number. -/
theorem proper_intervalGraph {a b : ℝ} :
    intervalGraph.ProperSupports Registry.builtin .direct
      (((Slots.empty.put 0 (.scalar a)).put 1 (.scalar (a + Scalar.ofInt 1))).put 2
        (.scalar b)) := by
  intro n hn law hrole d hd s hs lower hlower upper hupper c hc hc'
  simp only [intervalGraph, List.mem_cons, List.not_mem_nil, or_false] at hn
  rcases hn with rfl | rfl | rfl
  · cases hrole
    cases hd
    cases hs
    cases hlower
    cases hupper
    have hzero : ((0 : Int) : ℝ) = c := Option.some.inj hc
    have hone : ((1 : Int) : ℝ) = c := Option.some.inj hc'
    norm_num [← hzero] at hone
  · cases hrole
  · cases hrole
    cases hd
    cases hs
    cases hlower
    cases hupper
    have ha : a = c := Option.some.inj hc
    have hone : a + Scalar.ofInt 1 = c := Option.some.inj hc'
    simp [ha] at hone

/-- The graph of the model is built and evaluated with bounds that depend on a parameter and on a
logical node, and its log-Jacobian is that of the map to constrained values. -/
theorem logJacobian_intervalModel :
    ∃ ev, (build intervalModel Table.empty (Registry.builtin : Registry Dual)).collect.1 =
        .ok intervalGraph ∧
      intervalGraph.evaluate (Registry.builtin : Registry ℝ) { score := false }
        (List.ofFn fun _ : Fin intervalGraph.dimension => (0 : ℝ)) = .ok ev ∧
      (∀ p ∈ ev.parameters, p.2.shape = []) ∧
      intervalGraph.ProperSupports Registry.builtin .direct ev.slots ∧
      ∃ D : Fin intervalGraph.dimension → ℝ, (∀ k, D k ≠ 0) ∧
        ev.logJacobian.real? = some (∑ k, Real.log |D k|) := by
  obtain ⟨ev, b, hev, hslots, hparameters⟩ := evaluate_intervalGraph
  have hscalar : ∀ p ∈ ev.parameters, p.2.shape = [] := by
    rw [hparameters]
    simp only [List.forall_mem_cons]
    exact ⟨rfl, rfl, fun _ hp => absurd hp List.not_mem_nil⟩
  have hproper : intervalGraph.ProperSupports Registry.builtin .direct ev.slots := by
    rw [hslots]
    exact proper_intervalGraph
  obtain ⟨-, -, D, hD, hsum, -⟩ :=
    logJacobian_of_build build_intervalModel rfl hev hscalar hproper
  exact ⟨ev, build_intervalModel, hev, hscalar, hproper, D, fun k => (hD k).2.2, hsum⟩

end BayesGraph.Graph
