import Mathlib
import BayesGraph.Proofs.IntegralAssignments
import BayesGraph.Proofs.Jacobian
import BayesGraph.Proofs.NamedValues

/-!
# Vectors of coordinates and assignments of values

`unflatten` evaluates the nodes of a graph at a vector of coordinates, and `flatten` goes through
them with an assignment of values. Both meet at the values of all nodes: one computes them, and the
other one gets the same values, where those of parameters are known instead of computed
(`flatten_of_flattens`). So the coordinates that `flatten` puts together are those that belong to
the values, in the numbering that `unflatten` uses, and each of the two undoes the other
(`unflatten_flatten_of_build`).
-/

set_option autoImplicit false

namespace BayesGraph

open Outcome ExactReals

namespace Graph

variable {g : Graph} {r : Registry ℝ} {V : Valuation ℝ} {slots : Slots ℝ} {n : Node}
  {placed : List Nat} {i : Nat}

/-! ## Values that are known instead of computed -/

/-- The slots of some nodes hold their values, computed or known. -/
def Agrees (g : Graph) (V : Valuation ℝ) (slots : Slots ℝ) (placed : List Nat) : Prop :=
  ∀ j ∈ placed, ∀ n, g.nodes[j]? = some n →
    ∃ v w, V n.id = some v ∧ slots j = some w ∧ Value.Alike v w

/-- The references of a node are looked up in the slots of its parents. -/
theorem WellFormed.lookup_follows (hg : g.WellFormed) (hn : g.nodes[i]? = some n)
    (hparents : ∀ j ∈ g.parentLists.parents i, j ∈ placed) (hagrees : g.Agrees V slots placed)
    {refs : List Identity} (hrefs : Expr.refsOfAll n.role.parts = .ok refs) :
    ∀ id ∈ refs, Value.Follows ((V.environment r .direct).lookup id)
      ((g.environment r .direct slots).lookup id) := by
  intro id hid
  obtain ⟨j, p, hj, hp, rfl⟩ := hg.parent_of_ref (List.mem_of_getElem? hn) hrefs hid
  rw [← parents_of_getElem? hn] at hj
  obtain ⟨v, w, hv, hw, halike⟩ := hagrees j (hparents j hj) p hp
  have hindex := hg.index?_of_getElem? hp
  simp only [Valuation.environment, environment, hindex, hv, Option.bind_some, hw]
  exact Value.follows_ok halike

variable {env env' : Environment ℝ} {ids : List Identity}

/-- An optional bound follows. -/
theorem mapM_eval_follows (hr : r.Faithful)
    {l l' : Identity → Except EvalError (Value ℝ)} {bound : Option Expr}
    (hrefs : Expr.refsOfAll bound.toList = .ok ids) (hl : ∀ id ∈ ids, Value.Follows (l id) (l' id))
    {v : Option (Value ℝ)}
    (h : bound.mapM (Expr.eval ⟨.density, .direct, r.functions, l⟩) = .ok v) :
    ∃ w, bound.mapM (Expr.eval ⟨.density, .direct, r.functions, l'⟩) = .ok w ∧
      Option.Rel Value.Alike v w := by
  cases bound with
  | none =>
    cases h
    exact ⟨none, rfl, .none⟩
  | some e =>
    obtain ⟨own, hown, hsub⟩ := Expr.refs_of_refsOfAll hrefs (List.mem_singleton.mpr rfl)
    rw [Option.mapM_some, functorMap_eq_ok] at h
    obtain ⟨u, hu, rfl⟩ := h
    obtain ⟨w, hw, halike⟩ :=
      Expr.eval_follows hr.functions e hown (fun id hid => hl id (hsub hid)) u hu
    refine ⟨some w, ?_, .some halike⟩
    rw [Option.mapM_some, functorMap_eq_ok]
    exact ⟨w, hw, rfl⟩

/-- A distribution with known references. -/
theorem bindDist_follows (hr : r.Faithful) {l l' : Identity → Except EvalError (Value ℝ)}
    {law : Dist} (hrefs : Expr.refsOfAll law.parts = .ok ids)
    (hl : ∀ id ∈ ids, Value.Follows (l id) (l' id)) {d : BoundDist ℝ}
    (h : bindDist r ⟨.density, .direct, r.functions, l⟩ law = .ok d) :
    d.family.Faithful ∧
      ∃ d', bindDist r ⟨.density, .direct, r.functions, l'⟩ law = .ok d' ∧ d.Alike d' := by
  unfold Dist.parts Dist.bounds at hrefs
  obtain ⟨ps, bs, hps, hbs, rfl⟩ := Expr.refsOfAll_append.mp hrefs
  obtain ⟨ls, us, hls, hus, rfl⟩ := Expr.refsOfAll_append.mp hbs
  unfold bindDist at h ⊢
  simp only [bind_eq_ok] at h ⊢
  obtain ⟨params, hparams, lower, hlower, upper, hupper, h⟩ := h
  obtain ⟨params', hparams', hp⟩ := Expr.evalAll_follows hr.functions law.params hps
    (fun id hid => hl id (List.mem_append_left _ hid)) hparams
  obtain ⟨lower', hlower', hlo⟩ := mapM_eval_follows hr hls
    (fun id hid => hl id (List.mem_append_right _ (List.mem_append_left _ hid))) hlower
  obtain ⟨upper', hupper', hup⟩ := mapM_eval_follows hr hus
    (fun id hid => hl id (List.mem_append_right _ (List.mem_append_right _ hid))) hupper
  split at h
  · next family hfamily =>
    cases h
    obtain ⟨name, -, hget⟩ := Option.bind_eq_some_iff.mp hfamily
    refine ⟨hr.families name family hget, ⟨family, params', lower', upper'⟩, ?_,
      ⟨rfl, hp, hlo, hup⟩⟩
    exact ⟨params', hparams', lower', hlower', upper', hupper', rfl⟩
  · cases h

/-! ## Along the order -/

/-- Under the values `V` nothing raises an error while node `i` is turned into coordinates, and the
coordinate of a parameter has the property `P`. -/
structure Flattens (r : Registry ℝ) (assignment : Assignment ℝ) (transformed : Bool)
    (V : Valuation ℝ) (P : Nat → ℝ → Prop) (i : Nat) (n : Node) : Prop where
  observed : ∀ value dist, n.role = .observed value dist →
    V n.id = some (.number (value.map Scalar.ofDouble))
  logical : ∀ e, n.role = .logical e →
    ∃ v, e.eval (V.environment r .direct) = .ok v ∧ V n.id = some v
  parameter : ∀ law, n.role = .parameter law →
    ∃ d v, bindDist r (V.environment r .direct) law = .ok d ∧ V n.id = some v ∧
      (d.family.Faithful → ∀ d', d.Alike d' → ∃ w u y,
        place d' transformed (assignment.get? n.id) = .ok (w, u) ∧ Value.Alike v w ∧
        u.toScalar = .ok y ∧ P i y)

variable {assignment : Assignment ℝ} {transformed : Bool} {P : Nat → ℝ → Prop}
  {f : Flattening ℝ}

/-- A slot that holds the value of its node keeps the slots in agreement. -/
theorem Agrees.put {v w : Value ℝ} (hagrees : g.Agrees V slots placed) (hn : g.nodes[i]? = some n)
    (hv : V n.id = some v) (halike : Value.Alike v w) :
    g.Agrees V (slots.put i w) (placed ++ [i]) := by
  intro j hj p hp
  by_cases hji : j = i
  · subst hji
    cases hn.symm.trans hp
    exact ⟨v, w, hv, if_pos rfl, halike⟩
  · have hj' : j ∈ placed := by simpa [hji] using hj
    obtain ⟨v', w', hv', hw', halike'⟩ := hagrees j hj' p hp
    exact ⟨v', w', hv', (if_neg hji).trans hw', halike'⟩

/-- Going on to one node: its slot agrees, and a parameter adds its coordinate. -/
theorem flattenNode_of_flattens (hg : g.WellFormed) (hr : r.Faithful)
    (hn : g.nodes[i]? = some n)
    (hparents : ∀ j ∈ g.parentLists.parents i, j ∈ placed)
    (hflattens : Flattens r assignment transformed V P i n) (hagrees : g.Agrees V f.slots placed) :
    ∃ f' ys, (∀ log, (g.flattenNode r assignment transformed f i).run log = (.ok f', log)) ∧
      g.Agrees V f'.slots (placed ++ [i]) ∧ f'.coordinates = f.coordinates ++ ys ∧
      List.Forall₂ P (if n.role.isParameter then [i] else []) ys := by
  obtain ⟨refs, hrefs, -⟩ := hg.linked n (List.mem_of_getElem? hn)
  have hl := hg.lookup_follows (r := r) hn hparents hagrees hrefs
  cases hrole : n.role with
  | observed value dist =>
    have hv := hflattens.observed value dist hrole
    exact ⟨_, [], fun _ => run_flattenNode_observed hn hrole, hagrees.put hn hv (.same trivial),
      (List.append_nil _).symm, .nil⟩
  | logical e =>
    obtain ⟨v, he, hv⟩ := hflattens.logical e hrole
    rw [hrole] at hrefs
    obtain ⟨own, hown, hsub⟩ := Expr.refs_of_refsOfAll hrefs (List.mem_singleton.mpr rfl)
    obtain ⟨w, hw, halike⟩ :=
      Expr.eval_follows hr.functions e hown (fun id hid => hl id (hsub hid)) v he
    exact ⟨_, [], fun _ => run_flattenNode_logical hn hrole hw, hagrees.put hn hv halike,
      (List.append_nil _).symm, .nil⟩
  | parameter law =>
    obtain ⟨d, v, hd, hv, hplace⟩ := hflattens.parameter law hrole
    rw [hrole] at hrefs
    obtain ⟨hfaithful, d', hd', halike⟩ := bindDist_follows hr hrefs hl hd
    obtain ⟨w, u, y, hwu, hvw, hy, hP⟩ := hplace hfaithful d' halike
    exact ⟨_, [y], fun _ => run_flattenNode_parameter hn hrole hd' hwu hy,
      hagrees.put hn hv hvw, rfl, .cons hP .nil⟩

/-- Where nothing raises an error, an assignment has a vector of coordinates, one for each
parameter. -/
theorem flatten_of_flattens (hg : g.WellFormed) (hr : r.Faithful)
    (hflattens : ∀ i n, g.nodes[i]? = some n → Flattens r assignment transformed V P i n) :
    ∃ theta, (g.flatten r assignment transformed).collect.1 = .ok theta ∧
      List.Forall₂ P g.parameters theta := by
  have hadvances :
      g.Advances r assignment transformed (fun front f => g.Agrees V f.slots front) P := by
    intro front i rest f n horder _ hagrees hn
    have hfirst := hg.order.parents_first
    rw [horder] at hfirst
    exact flattenNode_of_flattens hg hr hn
      (fun j hj => by simpa using ParentLists.parents_of_parentsFirst hfirst j hj)
      (hflattens i n hn) hagrees
  exact hadvances.exists_coordinates hg fun j hj => absurd hj List.not_mem_nil

/-! ## From coordinates to values and back -/

section Values

variable {theta theta' : List ℝ} {mode : EvaluationMode} {ev : Evaluation ℝ}

/-- Coordinates that are listed for the parameters are a vector. -/
theorem WellFormed.eq_of_coordinates (hg : g.WellFormed) (hlen : theta.length = g.dimension)
    (h : List.Forall₂ (fun i y => g.coordinate? theta i = some y) g.parameters theta') :
    theta' = theta := by
  obtain ⟨hlength, hget⟩ := List.forall₂_iff_get.mp h
  refine List.ext_getElem (hlength.symm.trans hlen.symm) fun k hk hk' => ?_
  have hkp : k < g.parameters.length := hlength ▸ hk
  have hcoordinate : g.coordinate? theta g.parameters[k] = some theta'[k] := hget k hkp hk
  rw [hg.coordinate?_eq (List.getElem?_eq_getElem hkp), List.getElem?_eq_getElem hk'] at hcoordinate
  exact (Option.some.inj hcoordinate).symm

/-- An evaluation locates a parameter at its coordinate. -/
theorem located_of_evaluate (hg : g.WellFormed) (h : g.evaluate r mode theta = .ok ev)
    (hn : g.nodes[i]? = some n) {law : Dist} (hrole : n.role = .parameter law) :
    ∃ d y x slopes, bindDist r ((g.valuation ev.slots).environment r mode.calls) law = .ok d ∧
      g.coordinate? theta i = some y ∧ locate mode d y = .ok (x, slopes) ∧
      g.valuation ev.slots n.id = some x := by
  obtain ⟨cs, hcs, -, -⟩ := (evaluate_eq_ok_iff hg).mp h
  obtain ⟨c, -, n', hn', hslot, hc⟩ := exists_of_forall₂ hcs (hg.mem_order hn)
  cases hn.symm.trans hn'
  rw [← (hg.at_node theta ev.slots hn).2] at hslot
  cases contribution_eq_ok_iff.mp hc with
  | logical hrole' _ | observed hrole' _ => cases hrole.symm.trans hrole'
  | parameter hrole' hy hd hx _ =>
    cases hrole.symm.trans hrole'
    exact ⟨_, _, _, _, hd, hy, hx, hslot⟩

/-- Located values without dimensions are numbers. -/
theorem scalar_of_locate {d : BoundDist ℝ} {x : Value ℝ} {slopes : List (Value ℝ)} {y a : ℝ}
    (h : locate mode d y = .ok (x, slopes)) (hx : x.toScalar = .ok a) :
    x = .scalar a ∧ if mode.transformed then
      ∃ slope, d.toConstrained (.scalar y) = .ok (.scalar a, slope) else a = y := by
  have hlocate := locate_eq_ok h
  split at hlocate
  · next ht =>
    obtain ⟨f, slope, hf, hback, hjac, rfl⟩ := hlocate
    obtain ⟨t, rfl⟩ := Bijection.backward_isDensity f.map hback ⟨_, rfl⟩
    have hscalar : t = .scalar a := by
      cases hs : t.scalar? with
      | none => simp [Value.toScalar, Value.toTensor, hs] at hx
      | some b =>
        obtain rfl := Tensor.scalar?_eq_some hs
        cases hx
        rfl
    subst hscalar
    rw [if_pos ht]
    exact ⟨rfl, slope, BoundDist.toConstrained_eq_ok.mpr ⟨f, hf, hback, hjac⟩⟩
  · next ht =>
    obtain ⟨rfl, rfl⟩ := hlocate
    rw [if_neg ht]
    cases hx
    exact ⟨rfl, rfl⟩

/-- The supports of all parameters are between different numbers. -/
def RegularSupports (g : Graph) (r : Registry ℝ) (slots : Slots ℝ) : Prop :=
  ∀ n ∈ g.nodes, ∀ law, n.role = .parameter law → ∀ d,
    bindDist r (g.environment r .direct slots) law = .ok d → d.Regular

variable {logical : Bool} {values : List (Identity × ℝ)}

/-- The named value of a parameter is found in the assignment of all named values. -/
theorem get?_of_unflatten (hg : g.WellFormed) (h : g.evaluate r mode theta = .ok ev)
    (hvalues : List.Forall₂ (fun p q => p.2.toScalar = .ok q.2 ∧ p.1 = q.1)
      (if logical then ev.parameters ++ g.logicalValues ev.slots else ev.parameters) values)
    (hn : g.nodes[i]? = some n) (hi : i ∈ g.parameters) :
    ∃ x a, g.valuation ev.slots n.id = some x ∧ x.toScalar = .ok a ∧
      (Table.ofList (values.map fun p => (p.1, Value.real p.2))).get? n.id = some (.real a) := by
  obtain ⟨⟨id, x⟩, hmem, hid, hx⟩ := exists_of_forall₂ (parameters_of_evaluate hg h) hi
  rw [hn, Option.map_some, Option.some.injEq] at hid
  have hid' : n.id = id := hid
  subst hid'
  have hnamed : (n.id, x) ∈
      if logical then ev.parameters ++ g.logicalValues ev.slots else ev.parameters := by
    split
    · exact List.mem_append_left _ hmem
    · exact hmem
  obtain ⟨⟨id, a⟩, hamem, ha, hid'⟩ := exists_of_forall₂ hvalues hnamed
  have hid'' : n.id = id := hid'
  subst hid''
  refine ⟨x, a, valuation_of_named hg h hnamed, ha, Table.get?_ofList_of_mem
    (List.mem_map.mpr ⟨(n.id, a), hamem, rfl⟩) fun w hw => ?_⟩
  obtain ⟨⟨id, b⟩, hbmem, heq⟩ := List.mem_map.mp hw
  cases heq
  obtain ⟨⟨id, v⟩, hvmem, hv, hid'⟩ := exists_of_forall₂ hvalues.flip hbmem
  have hid'' : id = n.id := hid'
  subst hid''
  have hxv : x = v :=
    Option.some.inj ((valuation_of_named hg h hnamed).symm.trans (valuation_of_named hg h hvmem))
  subst hxv
  rw [Except.ok.inj (hv.symm.trans ha)]

/-- A graph takes the values that belong to a vector of coordinates back to the vector. -/
theorem flatten_of_unflatten (hg : g.WellFormed) (hr : r.Faithful)
    (hlen : theta.length = g.dimension)
    (h : g.unflatten r transformed logical theta = .ok values)
    (hregular : transformed = true → ∀ ev,
      g.evaluate r { transformed, score := false } theta = .ok ev → g.RegularSupports r ev.slots) :
    (g.flatten r (Table.ofList (values.map fun p => (p.1, Value.real p.2))) transformed).collect.1 =
      .ok theta := by
  obtain ⟨ev, hev, hvalues⟩ := unflatten_eq_ok h
  have hsolves := (Accounts.of_evaluate hg hev).solves
  have hflattens : ∀ i n, g.nodes[i]? = some n →
      Flattens r (Table.ofList (values.map fun p => (p.1, Value.real p.2))) transformed
        (g.valuation ev.slots) (fun i y => g.coordinate? theta i = some y) i n := by
    intro i n hn
    have hequation := hsolves.equations n (List.mem_of_getElem? hn)
    unfold NodeEquation at hequation
    constructor
    · intro value dist hrole
      rwa [hrole] at hequation
    · intro e hrole
      rwa [hrole] at hequation
    · intro law hrole
      obtain ⟨d, y, x, slopes, hd, hy, hlocate, hx⟩ := located_of_evaluate hg hev hn hrole
      have hi : i ∈ g.parameters := (hg.mem_parameters_iff hn).mpr (by rw [hrole]; rfl)
      -- The table holds the value that the evaluation placed there, which the inverse of the
      -- transform takes back to the coordinate.
      obtain ⟨x', a, hx', ha, hget⟩ := get?_of_unflatten hg hev hvalues hn hi
      cases hx.symm.trans hx'
      obtain ⟨rfl, hplaced⟩ := scalar_of_locate hlocate ha
      refine ⟨d, .scalar a, hd, hx, fun hfaithful d' hd' => ?_⟩
      rw [hget]
      cases transformed with
      | false =>
        obtain rfl : a = y := hplaced
        exact ⟨.real a, .real a, a, rfl, .known a, rfl, hy⟩
      | true =>
        obtain ⟨slope, hplaced⟩ := hplaced
        have hdregular := hregular rfl ev hev n (List.mem_of_getElem? hn) law hrole d hd
        obtain ⟨u, hu, halike⟩ := BoundDist.toUnconstrained_of_toConstrained hdregular
          (hd'.sharesSupport hfaithful hdregular) hplaced (.known a)
        refine ⟨.real a, u, y, ?_, .known a, Value.toScalar_alike halike, hy⟩
        unfold place
        simp only [if_true, hu, ok_bind]
        rfl
  obtain ⟨theta', htheta', hcoordinates⟩ := flatten_of_flattens hg hr hflattens
  rw [htheta', hg.eq_of_coordinates hlen hcoordinates]

end Values

/-! ## From values to coordinates and back -/

section Completion

variable {d d' : BoundDist ℝ} {assigned : Option (Value ℝ)} {x : ℝ}

/-- Placing a parameter that is no integer gives a coordinate that is located at the value. -/
theorem Places.exists_coordinate_of_real (h : Places d transformed assigned x)
    (hreal : ∀ v, assigned = some v → v.integer? = none) (hregular : d.Regular)
    (hd : d.SharesSupport d') :
    ∃ w u y, place d' transformed assigned = .ok (w, u) ∧
      Value.Alike (.scalar x) w ∧ u.toScalar = .ok y ∧
      (∃ slopes : List ℝ, locate { transformed, score := false } d y =
        .ok (.scalar x, slopes.map Value.scalar)) ∧
      (transformed = true → assigned = none → y = 0) := by
  cases h with
  | @assigned v _ hv hinside hforward =>
    have halike := hv.alike (hreal v rfl)
    cases transformed with
    | false =>
      exact ⟨v, v, x, rfl, halike, Value.toScalar_alike halike, ⟨[], rfl⟩, nofun⟩
    | true =>
      obtain ⟨u, hu, hshape⟩ := hforward rfl
      obtain ⟨y, a, hya⟩ := BoundDist.exists_coordinate hregular hd hu hshape hinside
      obtain ⟨w, hw, hwy⟩ := BoundDist.toUnconstrained_of_toConstrained hregular hd hya halike
      refine ⟨v, w, y, ?_, halike, Value.toScalar_alike hwy,
        ⟨[a], locate_of_toConstrained hya⟩, nofun⟩
      unfold place
      simp only [if_true, hw, ok_bind]
      rfl
  | missing hback =>
    obtain ⟨w, u, y, hplace, halike, hy, hlocate, hzero⟩ :=
      exists_coordinate_of_missing hregular hd hback
    exact ⟨w, u, y, hplace, halike, hy, hlocate, fun ht _ => hzero ht⟩

/-- An assignment of reals with a completion has coordinates that belong to the values. -/
theorem Completes.exists_coordinates_of_reals {V : Valuation ℝ} (hg : g.WellFormed)
    (hr : r.Faithful) (h : g.Completes r assignment transformed V)
    (hreals : g.AssignsReals assignment) :
    ∃ theta, (g.flatten r assignment transformed).collect.1 = .ok theta ∧
      List.Forall₂ (g.CoordinateAt r assignment transformed V) g.parameters theta := by
  refine flatten_of_flattens (V := V) hg hr fun i n hn => ?_
  have hmem := List.mem_of_getElem? hn
  refine ⟨h.observed n hmem, h.logical n hmem, fun law hrole => ?_⟩
  obtain ⟨d, x, hd, hx, hregular, hplaces⟩ := h.parameter n hmem law hrole
  refine ⟨d, .scalar x, hd, hx, fun hfaithful d' hd' => ?_⟩
  have hi : i ∈ g.parameters := (hg.mem_parameters_iff hn).mpr (by rw [hrole]; rfl)
  obtain ⟨w, u, y, hplace, halike, hy, hlocate, hzero⟩ := hplaces.exists_coordinate_of_real
    (hreals n.id ((hg.mem_identities_iff hn).mpr hi)) hregular
    (hd'.sharesSupport hfaithful hregular)
  exact ⟨w, u, y, hplace, halike, hy, coordinateAt_of_locate hn hrole hd hx hlocate hzero⟩

/-- Every parameter has one of the coordinates. -/
theorem WellFormed.exists_coordinate_of_forall₂ (hg : g.WellFormed) {theta : List ℝ}
    (h : List.Forall₂ P g.parameters theta) (hi : i ∈ g.parameters) :
    ∃ y, g.coordinate? theta i = some y ∧ P i y := by
  obtain ⟨k, hk, rfl⟩ := List.getElem_of_mem hi
  obtain ⟨hlength, hget⟩ := List.forall₂_iff_get.mp h
  have hk' : k < theta.length := hlength ▸ hk
  refine ⟨theta[k], ?_, hget k hk hk'⟩
  rw [hg.coordinate?_eq (List.getElem?_eq_getElem hk), List.getElem?_eq_getElem hk']

/-- Sums of computed reals raise no error. -/
theorem exists_addTerms (terms : List ℝ) {sum : Value ℝ} {a : ℝ}
    (hsum : sum = .real a ∨ sum = .scalar a) :
    ∃ total, addTerms sum (terms.map Value.scalar) = .ok total := by
  induction terms generalizing sum a with
  | nil => exact ⟨sum, rfl⟩
  | cons b terms ih =>
    have hadd : sum.add (.scalar b) = .ok (.scalar (a + b)) := by rcases hsum with rfl | rfl <;> rfl
    obtain ⟨total, htotal⟩ := ih (Or.inr (Eq.refl (Value.scalar (a + b))))
    refine ⟨total, ?_⟩
    rw [List.map_cons, addTerms, List.foldlM_cons, hadd, ok_bind]
    exact htotal

/-- A node under the values of a completion: its contribution has this value, and at most terms of
the log-Jacobian. -/
theorem Completes.exists_contribution {V : Valuation ℝ} {theta : List ℝ} (hg : g.WellFormed)
    (h : g.Completes r assignment transformed V)
    (htheta : List.Forall₂ (g.CoordinateAt r assignment transformed V) g.parameters theta)
    (hn : g.nodes[i]? = some n) :
    ∃ c, contribution r { transformed, score := false } (V.environment r .direct)
        (g.coordinate? theta i) n = .ok c ∧ V n.id = some c.value ∧ c.prior = [] ∧
      c.likelihood = [] ∧ ∃ slopes : List ℝ, c.jacobian = slopes.map Value.scalar := by
  have hmem := List.mem_of_getElem? hn
  cases hrole : n.role with
  | observed value dist =>
    refine ⟨_, contribution_eq_ok_iff.mpr (.observed hrole ?_), h.observed n hmem value dist hrole,
      rfl, rfl, [], rfl⟩
    cases dist <;> rfl
  | logical e =>
    obtain ⟨v, hv, hV⟩ := h.logical n hmem e hrole
    exact ⟨_, contribution_eq_ok_iff.mpr (.logical hrole hv), hV, rfl, rfl, [], rfl⟩
  | parameter law =>
    have hi : i ∈ g.parameters := (hg.mem_parameters_iff hn).mpr (by rw [hrole]; rfl)
    obtain ⟨y, hy, hcoordinate⟩ := hg.exists_coordinate_of_forall₂ htheta hi
    obtain ⟨d, x, hd, hx, slopes, hlocate⟩ := hcoordinate.located n hn law hrole
    exact ⟨_, contribution_eq_ok_iff.mpr (.parameter hrole hy hd hlocate rfl), hx, rfl, rfl,
      slopes, rfl⟩

/-- Slopes that are numbers one by one are numbers together. -/
theorem exists_slopes {cs : List (Contribution ℝ)}
    (h : ∀ c ∈ cs, ∃ slopes : List ℝ, c.jacobian = slopes.map Value.scalar) :
    ∃ slopes : List ℝ, cs.flatMap (·.jacobian) = slopes.map Value.scalar := by
  induction cs with
  | nil => exact ⟨[], rfl⟩
  | cons c cs ih =>
    obtain ⟨slopes, hslopes⟩ := ih fun c hc => h c (List.mem_cons_of_mem _ hc)
    obtain ⟨first, hfirst⟩ := h c List.mem_cons_self
    exact ⟨first ++ slopes, by rw [List.flatMap_cons, hfirst, hslopes, List.map_append]⟩

/-- The values of a completion are those of an evaluation at the coordinates. -/
theorem Completes.exists_evaluation {V : Valuation ℝ} {theta : List ℝ} (hg : g.WellFormed)
    (h : g.Completes r assignment transformed V)
    (htheta : List.Forall₂ (g.CoordinateAt r assignment transformed V) g.parameters theta) :
    ∃ ev, g.evaluate r { transformed, score := false } theta = .ok ev ∧
      ∀ i n, g.nodes[i]? = some n → ev.slots i = V n.id := by
  let slots : Slots ℝ := fun i => (g.nodes[i]?).bind fun n => V n.id
  have hslots : ∀ i n, g.nodes[i]? = some n → slots i = V n.id := fun i n hn => by
    simp only [slots, hn, Option.bind_some]
  have hcontributes : ∀ i ∈ g.order, ∃ c,
      g.Contributes r { transformed, score := false } theta slots i c ∧ c.prior = [] ∧
        c.likelihood = [] ∧ ∃ slopes : List ℝ, c.jacobian = slopes.map Value.scalar := by
    intro i hi
    have hn := List.getElem?_eq_getElem (hg.lt_size i hi)
    obtain ⟨c, hc, hV, hquiet⟩ := h.exists_contribution hg htheta hn
    obtain ⟨refs, hrefs, -⟩ := hg.linked _ (List.mem_of_getElem? hn)
    have hagree : ∀ id ∈ refs, V id = g.valuation slots id := fun id hid => by
      obtain ⟨j, p, -, hp, rfl⟩ := hg.parent_of_ref (List.mem_of_getElem? hn) hrefs hid
      rw [(hg.at_node theta slots hp).2, hslots j p hp]
    rw [contribution_congr hrefs hagree] at hc
    exact ⟨c, ⟨_, hn, (hslots i _ hn).trans hV, hc⟩, hquiet⟩
  obtain ⟨cs, hcs⟩ := exists_forall₂ hcontributes
  have hquiet : ∀ c ∈ cs, c.prior = [] ∧ c.likelihood = [] ∧
      ∃ slopes : List ℝ, c.jacobian = slopes.map Value.scalar := fun c hc => by
    obtain ⟨i, -, -, hquiet⟩ := exists_of_forall₂ hcs.flip hc
    exact hquiet
  obtain ⟨slopes, hslopes⟩ := exists_slopes fun c hc => (hquiet c hc).2.2
  obtain ⟨total, htotal⟩ := exists_addTerms slopes (Or.inl (Eq.refl (Value.real (Scalar.ofInt 0))))
  refine ⟨⟨slots, cs.flatMap (·.parameters), .real (Scalar.ofInt 0), .real (Scalar.ofInt 0), total⟩,
    (evaluate_eq_ok_iff hg).mpr ⟨cs, hcs.imp fun _ _ hic => hic.1, fun i hi => ?_, ?_⟩, hslots⟩
  · have hnone : g.nodes[i]? = none := by
      cases hn : g.nodes[i]? with
      | none => rfl
      | some n => exact absurd (hg.mem_order hn) hi
    simp only [slots, hnone, Option.bind_none]
  · refine ⟨rfl, ?_, ?_, ?_⟩
    · rw [List.flatMap_eq_nil_iff.mpr fun c hc => (hquiet c hc).1]
      rfl
    · rw [List.flatMap_eq_nil_iff.mpr fun c hc => (hquiet c hc).2.1]
      rfl
    · rw [hslopes]
      exact htotal

/-- Every parameter has a value of the completion, which is the assigned one if there is one. -/
theorem Completes.exists_value {V : Valuation ℝ} (hg : g.WellFormed)
    (h : g.Completes r assignment transformed V) (hi : i ∈ g.parameters) :
    ∃ n x, g.nodes[i]? = some n ∧ V n.id = some (.scalar x) ∧
      ∀ v, assignment.get? n.id = some v → v.Reads x := by
  obtain ⟨k, hk, hki⟩ := List.getElem_of_mem hi
  obtain ⟨n, law, hn, hrole⟩ :=
    hg.parameter_of_coordinate (List.getElem?_eq_some_iff.mpr ⟨hk, hki⟩)
  obtain ⟨d, x, -, hx, -, hplaces⟩ := h.parameter n (List.mem_of_getElem? hn) law hrole
  refine ⟨n, x, hn, hx, fun v hv => ?_⟩
  rw [hv] at hplaces
  cases hplaces with
  | assigned hv _ _ => exact hv

/-- The coordinates of an assignment with a completion: those without an assigned value are zero,
and they are taken back to the values of the completion. -/
theorem Completes.unflatten_flatten {V : Valuation ℝ} (hg : g.WellFormed) (hr : r.Faithful)
    (h : g.Completes r assignment transformed V)
    (hexact : g.AssignsReals assignment ∨ g.FlattensExactly r assignment transformed) :
    ∃ theta values, (g.flatten r assignment transformed).collect.1 = .ok theta ∧
      theta.length = g.dimension ∧
      (transformed = true →
        List.Forall₂ (fun id y => assignment.get? id = none → y = 0) g.parameterNames theta) ∧
      g.unflatten r transformed false theta = .ok values ∧
      List.Forall₂ (fun id p => p.1 = id ∧ V id = some (.scalar p.2) ∧
        ∀ v, assignment.get? id = some v → v.Reads p.2)
        g.parameterNames values := by
  obtain ⟨theta, htheta, hcoordinates⟩ :
      ∃ theta, (g.flatten r assignment transformed).collect.1 = .ok theta ∧
        List.Forall₂ (g.CoordinateAt r assignment transformed V) g.parameters theta := by
    rcases hexact with hreals | hexact
    · exact h.exists_coordinates_of_reals hg hr hreals
    · exact h.exists_coordinates_of_exact hg hexact
  obtain ⟨ev, hev, hslots⟩ := h.exists_evaluation hg hcoordinates
  have hlisted := parameters_of_evaluate hg hev
  have hnamed : ∀ p ∈ ev.parameters, ∃ q : Identity × ℝ, p.1 = q.1 ∧ p.2 = .scalar q.2 := by
    intro p hp
    obtain ⟨i, hi, hid, hslot⟩ := exists_of_forall₂ hlisted.flip hp
    obtain ⟨n, x, hn, hx, -⟩ := h.exists_value hg hi
    rw [hslots i n hn, hx, Option.some.injEq] at hslot
    exact ⟨(p.1, x), rfl, hslot.symm⟩
  obtain ⟨values, hvalues⟩ := exists_forall₂ hnamed
  refine ⟨theta, values, htheta, hcoordinates.length_eq.symm, fun htransformed => ?_, ?_, ?_⟩
  · refine forall₂_filterMap (List.forall₂_iff_get.mpr ⟨hcoordinates.length_eq, fun k hk hk' => ?_⟩)
    obtain ⟨n, -, hn, -⟩ := h.exists_value hg (List.getElem_mem hk)
    have hcoordinate := (List.forall₂_iff_get.mp hcoordinates).2 k hk hk'
    refine ⟨n.id, ?_, hcoordinate.unassigned htransformed n hn⟩
    exact congrArg (Option.map _) hn
  · unfold unflatten
    rw [hev, ok_bind]
    refine mapM_eq_ok.mpr (hvalues.imp ?_)
    rintro ⟨id, v⟩ ⟨id', x⟩ ⟨hid, hv⟩
    dsimp only at hid hv ⊢
    rw [hid, hv]
    rfl
  · have hcomposed : List.Forall₂ (fun i (q : Identity × ℝ) => ∃ c,
        (g.nodes[i]?).map (·.id) = some c ∧ q.1 = c ∧ V c = some (.scalar q.2) ∧
          ∀ v, assignment.get? c = some v → v.Reads q.2)
        g.parameters values := by
      refine List.forall₂_iff_get.mpr ⟨hlisted.length_eq.trans hvalues.length_eq,
        fun k hk hk' => ?_⟩
      have hkp : k < ev.parameters.length := hvalues.length_eq ▸ hk'
      obtain ⟨hid, hslot⟩ := (List.forall₂_iff_get.mp hlisted).2 k hk hkp
      obtain ⟨hq, hqv⟩ := (List.forall₂_iff_get.mp hvalues).2 k hkp hk'
      obtain ⟨n, x, hn, hx, hassigned⟩ := h.exists_value hg (List.getElem_mem hk)
      have hn' : g.nodes[g.parameters.get ⟨k, hk⟩]? = some n := hn
      rw [hn', Option.map_some, hq] at hid
      rw [hslots _ n hn', hx, hqv] at hslot
      obtain rfl : x = (values.get ⟨k, hk'⟩).2 :=
        (Tensor.scalar_inj (Value.array.inj (Option.some.inj hslot)).2)
      exact ⟨n.id, by rw [hn']; rfl, (Option.some.inj hid).symm, hx, hassigned⟩
    exact forall₂_filterMap hcomposed

end Completion

/-! ## Graphs that are built -/

/-- Bounds that are no computed integers are exact. -/
theorem exact_of_bounds {s : Support ℝ} (hword : ∀ r w, .word r w ∉ s.bounds)
    (hopposite : ∀ v ∈ s.bounds, v.real? ≠ some (-2 ^ 63)) : s.Exact where
  opposite := hopposite
  signed r n := hword r (.unsigned n)
  small r w hw := absurd hw (hword r w)

/-- A parameter `x`, and a parameter `y` above a logical node that depends on `x`. -/
def paretoModel : Model where
  statements :=
    [.sample [] (.var (.text "x"))
      (.dist { name := .text "dnorm", params := [.literal (.int 0), .literal (.int 1)] }),
    .assign [] (.var (.text "s")) (.add (.var (.text "x")) (.literal (.int 1))),
    .sample [] (.var (.text "y"))
      (.dist { name := .text "dpar", params := [.literal (.int 1), .var (.text "s")] })]

/-- The graph of the model. -/
def paretoGraph : Graph where
  nodes :=
    [{ id := ⟨"x", []⟩
       role := .parameter
        { name := .text "dnorm", params := [.literal (.int 0), .literal (.int 1)] }
       statement := some "x ~ dnorm(0, 1)" },
    { id := ⟨"s", []⟩
      role := .logical (.add (.ref ⟨"x", []⟩) (.literal (.int 1)))
      parents := [0]
      statement := some "s <- x + 1" },
    { id := ⟨"y", []⟩
      role := .parameter { name := .text "dpar", params := [.literal (.int 1), .ref ⟨"s", []⟩] }
      parents := [1]
      support := some .lower
      statement := some "y ~ dpar(1, s)" }]
  order := [0, 1, 2]
  parameters := [0, 2]

/-- The model is built without data, as the graph. -/
theorem build_paretoModel :
    (build paretoModel Table.empty (Registry.builtin : Registry Dual)).collect.1 =
      .ok paretoGraph := by
  have hdata : Bindings.flatten Table.empty = .ok ⟨Table.empty, ⟨[]⟩⟩ := rfl
  have hconstants : Folding.constants (Registry.builtin : Registry Dual).foldingFunctions
      paretoModel.statements ⟨Table.empty, ⟨[]⟩⟩ = .ok Table.empty := by
    unfold Folding.constants Folding.saturate
    rfl
  rw [build_of_constants hdata hconstants]
  with_unfolding_all rfl

/-- The values of the model where the second coordinate is zero. -/
theorem evaluate_paretoGraph (a : ℝ) :
    ∃ ev b, paretoGraph.evaluate (Registry.builtin : Registry ℝ)
        { transformed := true, score := false } [a, 0] = .ok ev ∧
      ev.slots = ((Slots.empty.put 0 (.scalar a)).put 1 (.scalar (a + Scalar.ofInt 1))).put 2
        (.scalar b) :=
  ⟨_, _, rfl, rfl⟩

/-- The bound `a + 1` is no integer without an opposite. -/
theorem regular_paretoGraph {a b : ℝ} (ha : 0 < a) :
    paretoGraph.RegularSupports Registry.builtin
      (((Slots.empty.put 0 (.scalar a)).put 1 (.scalar (a + Scalar.ofInt 1))).put 2
        (.scalar b)) := by
  intro n hn law hrole d hd s hs
  simp only [paretoGraph, List.mem_cons, List.not_mem_nil, or_false] at hn
  rcases hn with rfl | rfl | rfl
  · cases hrole
    cases hd
    cases hs
    exact ⟨nofun, exact_of_bounds nofun nofun⟩
  · cases hrole
  · cases hrole
    cases hd
    cases hs
    refine ⟨nofun, exact_of_bounds (fun r w hmem => ?_) fun v hv hreal => ?_⟩
    · have hmem' : Value.word r w ∈ [Value.scalar (a + Scalar.ofInt 1)] := hmem
      simp [Value.scalar] at hmem'
    · have hv' : v ∈ [Value.scalar (a + Scalar.ofInt 1)] := hv
      obtain rfl := List.mem_singleton.mp hv'
      have hlow : a + Scalar.ofInt 1 = -2 ^ 63 := Option.some.inj hreal
      rw [ofInt_eq, Int.cast_one] at hlow
      linarith

/-- The values of the model complete the assignment of the first of them, in any form. -/
theorem completes_paretoGraph {a : ℝ} (ha : 0 < a) {v : Value ℝ} (hv : v.Reads a) :
    ∃ V, paretoGraph.Completes (Registry.builtin : Registry ℝ)
      (Table.ofList [(⟨"x", []⟩, v)]) true V := by
  obtain ⟨ev, b, hev, hslots⟩ := evaluate_paretoGraph a
  have hwf := wellFormed_of_build build_paretoModel
  have hregular : paretoGraph.RegularSupports Registry.builtin ev.slots := by
    rw [hslots]
    exact regular_paretoGraph ha
  have hequations := (Accounts.of_evaluate hwf hev).solves.equations
  have hvalue : paretoGraph.valuation ev.slots ⟨"y", []⟩ = some (.scalar b) := by
    rw [hslots]
    rfl
  refine ⟨paretoGraph.valuation ev.slots, ⟨?_, ?_, ?_⟩⟩
  · intro n hn value dist hrole
    have hequation := hequations n hn
    unfold NodeEquation at hequation
    rwa [hrole] at hequation
  · intro n hn e hrole
    have hequation := hequations n hn
    unfold NodeEquation at hequation
    rwa [hrole] at hequation
  · intro n hn law hrole
    obtain ⟨i, hi⟩ := List.getElem?_of_mem hn
    obtain ⟨d, y, x, slopes, hd, hy, hlocate, hx⟩ := located_of_evaluate hwf hev hi hrole
    have hdregular := hregular n hn law hrole d hd
    simp only [paretoGraph, List.mem_cons, List.not_mem_nil, or_false] at hn
    rcases hn with rfl | rfl | rfl
    · cases hrole
      cases hd
      refine ⟨_, a, rfl, by rw [hslots]; rfl, hdregular, ?_⟩
      refine Places.assigned hv (fun s hs => ?_) fun _ => ⟨_, rfl, rfl⟩
      cases hs
      exact ⟨nofun, nofun⟩
    · cases hrole
    · cases hrole
      cases hx.symm.trans hvalue
      obtain ⟨-, slope, hback⟩ := scalar_of_locate hlocate rfl
      obtain rfl : 2 = i := Option.some.inj (hwf.index?_of_getElem? hi)
      obtain rfl : 0 = y := Option.some.inj hy
      exact ⟨d, b, hd, hvalue, hdregular, Places.missing hback⟩

/-- With the integer 2 for `x` nothing is computed inexactly: the bound of `y` is the integer 3. -/
theorem flattensExactly_paretoGraph :
    paretoGraph.FlattensExactly (Registry.builtin : Registry ℝ)
      (Table.ofList [(⟨"x", []⟩, .int 2)]) true := by
  intro front i rest f n horder hfront hn
  rcases front with _ | ⟨i₀, _ | ⟨i₁, _ | ⟨i₂, front⟩⟩⟩
  · cases horder
    cases hfront
    cases hn
    refine ⟨fun e he => ?_, nofun, fun law hrole => ?_, fun law hrole d hd => ?_⟩
    · have he' : e ∈ [Expr.literal (.int 0), .literal (.int 1)] := he
      rcases List.mem_pair.mp he' with rfl | rfl <;> trivial
    · cases hrole
      exact nofun
    · cases hrole
      cases hd
      refine ⟨@Registry.exactAt_builtin "dnorm" _ rfl _, nofun, fun s hs => ?_, nofun⟩
      cases hs
      exact ⟨exact_of_bounds nofun nofun, nofun⟩
  · cases horder
    cases hfront
    cases hn
    refine ⟨fun e he => ?_, fun e hrole => ?_, nofun, nofun⟩
    · obtain rfl := List.mem_singleton.mp he
      refine ⟨trivial, trivial, fun x y hx hy => ?_⟩
      cases hx
      cases hy
      exact nofun
    · cases hrole
      exact nofun
  · cases horder
    cases hfront
    cases hn
    refine ⟨fun e he => ?_, nofun, fun law hrole => ?_, fun law hrole d hd => ?_⟩
    · have he' : e ∈ [Expr.literal (.int 1), .ref ⟨"s", []⟩] := he
      rcases List.mem_pair.mp he' with rfl | rfl <;> trivial
    · cases hrole
      exact nofun
    · cases hrole
      cases hd
      refine ⟨@Registry.exactAt_builtin "dpar" _ rfl _, nofun, fun s hs => ?_, nofun⟩
      cases hs
      refine ⟨exact_of_bounds (fun r w hmem => ?_) fun v hv hreal => ?_, fun k hk => ?_⟩
      · have hmem' : Value.word r w ∈ [(Value.int 3 : Value ℝ)] := hmem
        simp [Value.int] at hmem'
      · have hv' : v ∈ [(Value.int 3 : Value ℝ)] := hv
        obtain rfl := List.mem_singleton.mp hv'
        have hthree : ((3 : Int) : ℝ) = -2 ^ 63 := Option.some.inj hreal
        norm_num at hthree
      · have hk' : Value.int k ∈ [(Value.int 3 : Value ℝ)] := hk
        cases List.mem_singleton.mp hk'
        rfl
  · have hlength := congrArg List.length horder
    simp [paretoGraph] at hlength

end Graph

end BayesGraph
