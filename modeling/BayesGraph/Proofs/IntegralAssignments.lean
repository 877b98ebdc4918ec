import Mathlib
import BayesGraph.Proofs.KnownIntegers

/-!
# Assignments of values, integers among them

The values of all nodes complete an assignment of values to some parameters (`Graph.Completes`). In
them every parameter is a computed real, while `flatten` goes on with the values as they are
assigned. An assigned integer stays one in all that is computed from it. Where no arithmetic of
words wraps around and no integer is too large (`Graph.FlattensExactly`), the values that `flatten`
goes through stand for the same numbers at every node (`Graph.Shows`), so that it finds the
coordinates of the completion (`Graph.Completes.exists_coordinates_of_exact`). The induction is
along the order of the nodes.
-/

set_option autoImplicit false

namespace BayesGraph

open Outcome ExactReals

namespace Graph

/-- A parameter with distribution `d` has the value `x`: a given number strictly inside the support,
at which the transform raises no error, or else the point with the unconstrained coordinate zero. -/
inductive Places (d : BoundDist ℝ) (transformed : Bool) : Option (Value ℝ) → ℝ → Prop
  | assigned {v : Value ℝ} {x : ℝ} (hv : v.Reads x)
      (hinside : ∀ s, d.support = .ok s → s.Inside x)
      (hforward : transformed = true →
        ∃ u, d.toUnconstrained (.scalar x) = .ok u ∧ u.shape = []) :
      Places d transformed (some v) x
  | missing {x : ℝ} {slope : Value ℝ}
      (hback : d.toConstrained (.scalar 0) = .ok (.scalar x, slope)) :
      Places d transformed none x

/-- The values `V` of all nodes complete an assignment: none of them raises an error, and every
parameter has the value that the assignment gives it. -/
structure Completes (g : Graph) (r : Registry ℝ) (assignment : Assignment ℝ) (transformed : Bool)
    (V : Valuation ℝ) : Prop where
  observed : ∀ n ∈ g.nodes, ∀ value dist, n.role = .observed value dist →
    V n.id = some (.number (value.map Scalar.ofDouble))
  logical : ∀ n ∈ g.nodes, ∀ e, n.role = .logical e →
    ∃ v, e.eval (V.environment r .direct) = .ok v ∧ V n.id = some v
  parameter : ∀ n ∈ g.nodes, ∀ law, n.role = .parameter law →
    ∃ d x, bindDist r (V.environment r .direct) law = .ok d ∧ V n.id = some (.scalar x) ∧
      d.Regular ∧ Places d transformed (assignment.get? n.id) x

/-- The coordinate `y` belongs to the value of node `i`. -/
structure CoordinateAt (g : Graph) (r : Registry ℝ) (assignment : Assignment ℝ)
    (transformed : Bool) (V : Valuation ℝ) (i : Nat) (y : ℝ) : Prop where
  located : ∀ n, g.nodes[i]? = some n → ∀ law, n.role = .parameter law →
    ∃ d x, bindDist r (V.environment r .direct) law = .ok d ∧ V n.id = some (.scalar x) ∧
      ∃ slopes : List ℝ, locate { transformed, score := false } d y =
        .ok (.scalar x, slopes.map Value.scalar)
  unassigned : transformed = true → ∀ n, g.nodes[i]? = some n → assignment.get? n.id = none → y = 0

/-- At a node nothing is computed inexactly from known integers: no arithmetic of words wraps
around, all functions and the family of a parameter are exact at their arguments, and integers that
are bounds of a support fit words. No integer is too large for a conversion, which would be an error
that is no domain error. -/
structure FlattensExactlyAt (r : Registry ℝ) (assignment : Assignment ℝ) (transformed : Bool)
    (env : Environment ℝ) (n : Node) : Prop where
  parts : ∀ e ∈ n.role.parts, e.IsExact env
  logical : ∀ e, n.role = .logical e → OnlyDomainErrors (e.eval env)
  law : ∀ law, n.role = .parameter law → OnlyDomainErrors (bindDist r env law)
  parameter : ∀ law, n.role = .parameter law → ∀ d, bindDist r env law = .ok d →
    d.family.ExactAt d.params ∧ OnlyDomainErrors d.support ∧ d.ExactSupport ∧
      OnlyDomainErrors (do
        let (_, u) ← place d transformed (assignment.get? n.id)
        u.toScalar)

/-- Along a whole run of `flatten`, nothing is computed inexactly from known integers. -/
def FlattensExactly (g : Graph) (r : Registry ℝ) (assignment : Assignment ℝ)
    (transformed : Bool) : Prop :=
  ∀ front i rest f n, g.order = front ++ i :: rest →
    (front.foldlM (g.flattenNode r assignment transformed) Flattening.start).collect.1 = .ok f →
    g.nodes[i]? = some n →
    FlattensExactlyAt r assignment transformed (g.environment r .direct f.slots) n

/-- No parameter is given as an integer. -/
def AssignsReals (g : Graph) (assignment : Assignment ℝ) : Prop :=
  ∀ id ∈ g.parameterNames, ∀ v, assignment.get? id = some v → v.integer? = none

variable {g : Graph} {r : Registry ℝ} {assignment : Assignment ℝ} {transformed : Bool}
  {V : Valuation ℝ} {slots : Slots ℝ} {f : Flattening ℝ} {n : Node} {i : Nat}

/-! ## Runs -/

section Runs

variable {law : Dist} {d : BoundDist ℝ} {e : Expr} {v x u : Value ℝ} {y : ℝ}
  {log : List LogEntry}

/-- A step at an observed node. -/
theorem run_flattenNode_observed {value : Number Double} {dist : Option Dist}
    (hn : g.nodes[i]? = some n) (hrole : n.role = .observed value dist) :
    (g.flattenNode r assignment transformed f i).run log =
      (.ok { f with slots := f.slots.put i (.number (value.map Scalar.ofDouble)) }, log) := by
  unfold flattenNode
  simp only [hn, hrole]
  rfl

/-- A step at a logical node whose expression has a value. -/
theorem run_flattenNode_logical (hn : g.nodes[i]? = some n) (hrole : n.role = .logical e)
    (he : e.eval (g.environment r .direct f.slots) = .ok v) :
    (g.flattenNode r assignment transformed f i).run log =
      (.ok { f with slots := f.slots.put i v }, log) := by
  unfold flattenNode logicalOrNaN
  simp only [hn, hrole, he]
  rfl

/-- A step at a parameter that is placed. -/
theorem run_flattenNode_parameter (hn : g.nodes[i]? = some n) (hrole : n.role = .parameter law)
    (hd : bindDist r (g.environment r .direct f.slots) law = .ok d)
    (hplace : place d transformed (assignment.get? n.id) = .ok (x, u)) (hy : u.toScalar = .ok y) :
    (g.flattenNode r assignment transformed f i).run log =
      (.ok ⟨f.slots.put i x, f.coordinates ++ [y],
        if (assignment.get? n.id).isSome then f.missing else f.missing ++ [n.id]⟩, log) := by
  unfold flattenNode
  simp only [hn, hrole]
  refine run_bind_eq_ok.mpr ⟨d, log, run_lift_eq_ok.mpr ⟨lift_eval_eq_ok.mpr hd, rfl⟩, ?_⟩
  refine run_bind_eq_ok.mpr ⟨(x, u), log, run_lift_eq_ok.mpr ⟨lift_eval_eq_ok.mpr hplace, rfl⟩, ?_⟩
  exact run_bind_eq_ok.mpr ⟨y, log, run_lift_eq_ok.mpr ⟨lift_eval_eq_ok.mpr hy, rfl⟩, rfl⟩

/-- Wherever `flatten` gets to while the invariant `I` holds, it goes on to the next node, keeps the
invariant, and adds a coordinate with the property `P` if the node is a parameter. -/
def Advances (g : Graph) (r : Registry ℝ) (assignment : Assignment ℝ) (transformed : Bool)
    (I : List Nat → Flattening ℝ → Prop) (P : Nat → ℝ → Prop) : Prop :=
  ∀ front i rest f n, g.order = front ++ i :: rest →
    (front.foldlM (g.flattenNode r assignment transformed) Flattening.start).collect.1 = .ok f →
    I front f → g.nodes[i]? = some n →
    ∃ f' ys, (∀ log, (g.flattenNode r assignment transformed f i).run log = (.ok f', log)) ∧
      I (front ++ [i]) f' ∧ f'.coordinates = f.coordinates ++ ys ∧
      List.Forall₂ P (if n.role.isParameter then [i] else []) ys

variable {I : List Nat → Flattening ℝ → Prop} {P : Nat → ℝ → Prop}

/-- From where the invariant holds, `flatten` goes through the rest of the order. -/
theorem Advances.run_rest (h : g.Advances r assignment transformed I P) (hg : g.WellFormed)
    {front rest : List Nat} (horder : g.order = front ++ rest)
    (hfront : (front.foldlM (g.flattenNode r assignment transformed) Flattening.start).run [] =
      (.ok f, [])) (hinv : I front f) :
    ∃ f' ys, (rest.foldlM (g.flattenNode r assignment transformed) f).run [] = (.ok f', []) ∧
      f'.coordinates = f.coordinates ++ ys ∧
      List.Forall₂ P (rest.filter fun j => (g.nodes[j]?).any (·.role.isParameter)) ys := by
  -- the front grows at its end by the node that the rest loses
  induction rest generalizing front f with
  | nil => exact ⟨f, [], rfl, (List.append_nil _).symm, .nil⟩
  | cons i rest ih =>
    obtain ⟨n, hn⟩ : ∃ n, g.nodes[i]? = some n := ⟨_, List.getElem?_eq_getElem
      (hg.lt_size i (horder ▸ List.mem_append_right front List.mem_cons_self))⟩
    obtain ⟨mid, ys, hmid, hinv, hcoordinates, hys⟩ :=
      h front i rest f n horder (congrArg Prod.fst hfront) hinv hn
    have hfront' : ((front ++ [i]).foldlM (g.flattenNode r assignment transformed)
        Flattening.start).run [] = (.ok mid, []) := by
      rw [List.foldlM_append]
      refine run_bind_eq_ok.mpr ⟨f, [], hfront, ?_⟩
      rw [List.foldlM_cons]
      exact run_bind_eq_ok.mpr ⟨mid, [], hmid [], rfl⟩
    have horder' : g.order = (front ++ [i]) ++ rest := by
      rw [horder, List.append_assoc, List.singleton_append]
    obtain ⟨f', zs, hf', hcoordinates', hzs⟩ := ih horder' hfront' hinv
    refine ⟨f', ys ++ zs, ?_, ?_, ?_⟩
    · rw [List.foldlM_cons]
      exact run_bind_eq_ok.mpr ⟨mid, [], hmid [], hf'⟩
    · rw [hcoordinates', hcoordinates, List.append_assoc]
    · have hselect : (i :: rest).filter (fun j => (g.nodes[j]?).any (·.role.isParameter)) =
          (if n.role.isParameter then [i] else []) ++
            rest.filter fun j => (g.nodes[j]?).any (·.role.isParameter) := by
        rw [List.filter_cons, hn, Option.any_some]
        split <;> rfl
      rw [hselect]
      exact List.rel_append hys hzs

/-- If `flatten` advances from the start on, it has one coordinate with the property `P` for each
parameter. -/
theorem Advances.exists_coordinates (h : g.Advances r assignment transformed I P)
    (hg : g.WellFormed) (hstart : I [] Flattening.start) :
    ∃ theta, (g.flatten r assignment transformed).collect.1 = .ok theta ∧
      List.Forall₂ P g.parameters theta := by
  obtain ⟨f, ys, hf, hcoordinates, hys⟩ := h.run_rest hg (List.nil_append _).symm rfl hstart
  rw [← hg.parameters] at hys
  refine ⟨ys, ?_, hys⟩
  have hresult : f.coordinates = ys := hcoordinates
  unfold flatten Logged.collect
  rw [run_bind_of_ok _ hf]
  dsimp only
  split <;> rw [hresult] <;> rfl

end Runs

/-! ## Placing a parameter -/

section Placing

variable {d d' : BoundDist ℝ} {assigned : Option (Value ℝ)} {x y a : ℝ}

/-- A coordinate is located where the transform takes it. -/
theorem locate_of_toConstrained (h : d.toConstrained (.scalar y) = .ok (.scalar x, .scalar a)) :
    locate { transformed := true, score := false } d y =
      .ok (.scalar x, [a].map Value.scalar) := by
  unfold locate
  rw [if_pos rfl, h]
  rfl

/-- A coordinate that is located at the value of a parameter belongs to it. -/
theorem coordinateAt_of_locate {law : Dist} (hn : g.nodes[i]? = some n)
    (hrole : n.role = .parameter law) (hd : bindDist r (V.environment r .direct) law = .ok d)
    (hx : V n.id = some (.scalar x))
    (hlocate : ∃ slopes : List ℝ, locate { transformed, score := false } d y =
      .ok (.scalar x, slopes.map Value.scalar))
    (hzero : transformed = true → assignment.get? n.id = none → y = 0) :
    g.CoordinateAt r assignment transformed V i y where
  located n' hn' law' hrole' := by
    cases hn.symm.trans hn'
    cases hrole.symm.trans hrole'
    exact ⟨d, x, hd, hx, hlocate⟩
  unassigned htransformed n' hn' hnone := by
    cases hn.symm.trans hn'
    exact hzero htransformed hnone

/-- Without an assigned value the coordinate is zero, also for values that are not transformed. -/
theorem exists_coordinate_of_missing {slope : Value ℝ} (hregular : d.Regular)
    (hd : d.SharesSupport d') (hback : d.toConstrained (.scalar 0) = .ok (.scalar x, slope)) :
    ∃ w u y, place d' transformed none = .ok (w, u) ∧ Value.Alike (.scalar x) w ∧
      u.toScalar = .ok y ∧
      (∃ slopes : List ℝ, locate { transformed, score := false } d y =
        .ok (.scalar x, slopes.map Value.scalar)) ∧
      (transformed = true → y = 0) := by
  obtain ⟨a, rfl⟩ := BoundDist.exists_slope hregular hd hback
  have hzero : Value.Alike (.scalar 0) (.real (Scalar.ofInt 0)) := by
    rw [ofInt_eq, Int.cast_zero]
    exact .known 0
  obtain ⟨w, slope', hw, halike⟩ := BoundDist.toConstrained_alike hregular hd hback hzero
  have hplace : place d' transformed none =
      .ok (w, if transformed then .real (Scalar.ofInt 0) else w) := by
    unfold place
    simp only [hw, ok_bind]
    rfl
  cases transformed with
  | false =>
    exact ⟨w, w, x, hplace, halike, Value.toScalar_alike halike, ⟨[], rfl⟩, nofun⟩
  | true =>
    exact ⟨w, _, 0, hplace, halike, Value.toScalar_alike hzero,
      ⟨[a], locate_of_toConstrained hback⟩, fun _ => rfl⟩

/-- A value is placed in a support of another form, at a coordinate that is located at the value. -/
theorem Places.exists_coordinate (h : Places d transformed assigned x) (hregular : d.Regular)
    (hd : d.SharesSupport d')
    (hdomain : OnlyDomainErrors (do
      let (_, u) ← place d' transformed assigned
      u.toScalar)) :
    ∃ w u y, place d' transformed assigned = .ok (w, u) ∧ Value.Renders (.scalar x) w ∧
      u.toScalar = .ok y ∧
      (∃ slopes : List ℝ, locate { transformed, score := false } d y =
        .ok (.scalar x, slopes.map Value.scalar)) ∧
      (transformed = true → assigned = none → y = 0) := by
  cases h with
  | @assigned v _ hv hinside hforward =>
    cases transformed with
    | false =>
      exact ⟨v, v, x, rfl, .reads hv, hv.toScalar_eq hdomain, ⟨[], rfl⟩, nofun⟩
    | true =>
      obtain ⟨u₀, hu₀, hshape⟩ := hforward rfl
      obtain ⟨t, ht, -⟩ := bind_eq_ok.mp hu₀
      obtain ⟨s, hs, -⟩ := bind_eq_ok.mp ht
      obtain ⟨y, a, hy⟩ := BoundDist.exists_coordinate hregular hd hu₀ hshape hinside
      -- the transform takes the computed real to its coordinate, and the given number, too
      obtain ⟨u₁, hu₁, halike⟩ :=
        BoundDist.toUnconstrained_of_toConstrained hregular hd hy (Value.alike_scalar x)
      have hconcur := hd.concur_toUnconstrained hs (.reads hv)
      rw [hu₁] at hconcur
      have hplace : place d' true (some v) = (do return (v, ← d'.toUnconstrained v)) := rfl
      rw [hplace] at hdomain ⊢
      obtain ⟨u, hu, hrenders⟩ := hconcur.exists_of_isDomain fun e he =>
        hdomain e (by rw [he]; rfl)
      rw [hu] at hdomain ⊢
      have hreads := hrenders.reads_right (halike.renders.reads_right (.scalar y))
      exact ⟨v, u, y, rfl, .reads hv, hreads.toScalar_eq hdomain,
        ⟨[a], locate_of_toConstrained hy⟩, nofun⟩
  | missing hback =>
    obtain ⟨w, u, y, hplace, halike, hy, hlocate, hzero⟩ :=
      exists_coordinate_of_missing hregular hd hback
    exact ⟨w, u, y, hplace, halike.renders, hy, hlocate, fun ht _ => hzero ht⟩

end Placing

/-! ## Along the order -/

/-- The slots hold values that stand for the same numbers as those of the nodes. -/
def Shows (g : Graph) (V : Valuation ℝ) (slots : Slots ℝ) : Prop :=
  ∀ j w, slots j = some w → ∃ n v, g.nodes[j]? = some n ∧ V n.id = some v ∧ Value.Renders v w

/-- References are looked up alike, or not found yet. -/
theorem Shows.concur_lookup (hg : g.WellFormed) (h : g.Shows V slots) (id : Identity) :
    Concur Value.Renders ((V.environment r .direct).lookup id)
      ((g.environment r .direct slots).lookup id) := by
  unfold environment Valuation.environment
  dsimp only
  cases hi : g.index? id with
  | none => exact .right rfl _
  | some j =>
    cases hw : slots j with
    | none =>
      rw [Option.bind_some, hw]
      exact .right rfl _
    | some w =>
      obtain ⟨n, v, hn, hv, hvw⟩ := h j w hw
      obtain ⟨p, hp, rfl⟩ := hg.getElem?_of_index? hi
      cases hn.symm.trans hp
      rw [Option.bind_some, hw, hv]
      exact .ok hvw

/-- A slot that shows the value of its node keeps all slots showing theirs. -/
theorem Shows.put {v w : Value ℝ} (h : g.Shows V slots) (hn : g.nodes[i]? = some n)
    (hv : V n.id = some v) (hvw : Value.Renders v w) : g.Shows V (slots.put i w) := by
  intro j u hu
  unfold Slots.put at hu
  split at hu
  · next hji =>
    subst hji
    cases hu
    exact ⟨n, v, hn, hv, hvw⟩
  · exact h j u hu

/-- Going on to one node: its slot shows its value, and a parameter adds a coordinate that belongs
to its value. -/
theorem flattenNode_of_exact (hg : g.WellFormed)
    (hcompletes : g.Completes r assignment transformed V) (hn : g.nodes[i]? = some n)
    (hexact : FlattensExactlyAt r assignment transformed (g.environment r .direct f.slots) n)
    (hshows : g.Shows V f.slots) :
    ∃ f' ys, (∀ log, (g.flattenNode r assignment transformed f i).run log = (.ok f', log)) ∧
      g.Shows V f'.slots ∧ f'.coordinates = f.coordinates ++ ys ∧
      List.Forall₂ (g.CoordinateAt r assignment transformed V)
        (if n.role.isParameter then [i] else []) ys := by
  have hmem := List.mem_of_getElem? hn
  have hlookup := hshows.concur_lookup (r := r) hg
  have hparts := hexact.parts
  cases hrole : n.role with
  | observed value dist =>
    have hv := hcompletes.observed n hmem value dist hrole
    exact ⟨_, [], fun _ => run_flattenNode_observed hn hrole,
      hshows.put hn hv (.same (Value.isDense_number _)), (List.append_nil _).symm, .nil⟩
  | logical e =>
    obtain ⟨v, he, hv⟩ := hcompletes.logical n hmem e hrole
    rw [hrole] at hparts
    have hconcur : Concur Value.Renders (e.eval (V.environment r .direct))
        (e.eval (g.environment r .direct f.slots)) :=
      Expr.concur_eval hlookup e (hparts e (List.mem_singleton_self e))
    rw [he] at hconcur
    obtain ⟨w, hw, hvw⟩ := hconcur.exists_of_isDomain (hexact.logical e hrole)
    exact ⟨_, [], fun _ => run_flattenNode_logical hn hrole hw, hshows.put hn hv hvw,
      (List.append_nil _).symm, .nil⟩
  | parameter law =>
    obtain ⟨d, x, hd, hx, hregular, hplaces⟩ := hcompletes.parameter n hmem law hrole
    rw [hrole] at hparts
    have hconcur : Concur BoundDist.Renders (bindDist r (V.environment r .direct) law)
        (bindDist r (g.environment r .direct f.slots) law) :=
      concur_bindDist hlookup law hparts
    rw [hd] at hconcur
    obtain ⟨d', hd', hrenders⟩ := hconcur.exists_of_isDomain (hexact.law law hrole)
    obtain ⟨hfamily, hdomain, hsupport, hplace⟩ := hexact.parameter law hrole d' hd'
    obtain ⟨w, u, y, hplace, hxw, hy, hlocate, hzero⟩ := hplaces.exists_coordinate hregular
      (hrenders.sharesSupport hfamily hdomain hsupport) hplace
    exact ⟨_, [y], fun _ => run_flattenNode_parameter hn hrole hd' hplace hy,
      hshows.put hn hx hxw, rfl, .cons (coordinateAt_of_locate hn hrole hd hx hlocate hzero) .nil⟩

/-- An assignment with a completion, for which known integers are computed with exactly, has
coordinates that belong to the values. -/
theorem Completes.exists_coordinates_of_exact (hg : g.WellFormed)
    (h : g.Completes r assignment transformed V)
    (hexact : g.FlattensExactly r assignment transformed) :
    ∃ theta, (g.flatten r assignment transformed).collect.1 = .ok theta ∧
      List.Forall₂ (g.CoordinateAt r assignment transformed V) g.parameters theta := by
  have hadvances : g.Advances r assignment transformed (fun _ f => g.Shows V f.slots)
      (g.CoordinateAt r assignment transformed V) :=
    fun front i rest f n horder hfront hshows hn =>
      flattenNode_of_exact hg h hn (hexact front i rest f n horder hfront hn) hshows
  exact hadvances.exists_coordinates hg nofun

end Graph

end BayesGraph
