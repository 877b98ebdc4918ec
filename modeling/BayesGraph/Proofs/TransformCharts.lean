import BayesGraph.Proofs.Inverses

/-!
# Compositions and inverses of transforms

Transforms can be composed and inverted in any nesting. Over the exact reals each of them is a chart
of the real line (`Bijection.chart`): an invertible map between two open sets, composed and inverted
as the transform is. By induction on the nesting, the forward direction computes the chart, the
backward direction its inverse, and `logJacobian` the logarithm of the absolute derivative of the
inverse (`Bijection.Regular.charted`). A composition evaluates the derivative of the inner
transform at the point between the two, and an inverse at the image of its argument, as the chain
rule and the derivative of an inverse function demand.

The inverse of a composition and the composition of the inverses have the same chart, and so have
the two ways of putting three transforms together.
-/

set_option autoImplicit false

namespace BayesGraph

open Outcome ExactReals Value

/-! ## Functions of one real -/

/-- The computation takes the real `a` to the real `b`, whether they are known or computed. -/
def Maps (f : Value ℝ → Except EvalError (Value ℝ)) (a b : ℝ) : Prop :=
  ∀ v, Alike (.scalar a) v → ∃ w, f v = .ok w ∧ Alike (.scalar b) w

namespace Bijection

variable {b outer inner : Bijection ℝ} {offset slope : Value ℝ} {F G : ℝ → ℝ} {o c : ℝ}

/-- The derivative of an affine map, backward. -/
theorem Smooth.affine_of_denotes (ho : offset.Denotes o) (hslope : slope.Denotes c) (hc : c ≠ 0)
    (hopposite : slope.integer? ≠ some (-2 ^ 63)) :
    (Bijection.affine offset slope).Smooth (fun y => (y - o) / c) fun _ => 1 / c where
  backward := (Exact.affine_of_denotes ho hslope hc hopposite).backward_scalar
  derivative y := by simpa using ((hasDerivAt_id y).sub_const o).div_const c
  ne_zero _ := one_div_ne_zero hc
  logJacobian y := by
    obtain ⟨size, hsize, hdenotes⟩ := hslope.exists_size hopposite
    have hstretch : (Bijection.affine offset slope).logJacobian (.scalar y) =
        .ok (.scalar (-Real.log |c| * Scalar.ofInt 1)) := by
      rw [Bijection.logJacobian, hsize, ok_bind, Bijection.apply, hdenotes.lift Scalar.log, ok_bind]
      rfl
    rw [hstretch, ofInt_eq, one_div, abs_inv, Real.log_inv]
    simp

/-- Forward and backward exchanged. -/
theorem Exact.inverse (h : b.Exact F G) : (inverse b).Exact G F where
  backward := h.forward
  forward := h.backward
  logJacobian a := by
    obtain ⟨s, hs⟩ := h.logJacobian (G a)
    refine ⟨-s, fun y hy => ?_⟩
    obtain ⟨u, hu, halike⟩ := h.forward a y hy
    obtain ⟨w, hw, hslope⟩ := hs u halike
    refine ⟨w.neg, ?_, neg_alike hslope⟩
    rw [Bijection.logJacobian, hu, ok_bind, hw]
    rfl

/-! ## Charts -/

/-- The chart of the unit interval. -/
noncomputable def logitChart : OpenPartialHomeomorph ℝ ℝ where
  toFun p := Real.log (p / (1 - p))
  invFun := Real.sigmoid
  source := Set.Ioo 0 1
  target := Set.univ
  map_source' _ _ := trivial
  map_target' y _ := ⟨Real.sigmoid_pos y, Real.sigmoid_lt_one y⟩
  left_inv' _ hp := sigmoid_log_ratio hp.1 hp.2
  right_inv' y _ := log_sigmoid_ratio y
  open_source := isOpen_Ioo
  open_target := isOpen_univ
  continuousOn_toFun := by
    intro p hp
    have hq : 1 - p ≠ 0 := (sub_pos.mpr hp.2).ne'
    have hratio : p / (1 - p) ≠ 0 := div_ne_zero hp.1.ne' hq
    have hcontinuous : ContinuousAt (fun p : ℝ => p / (1 - p)) p :=
      continuousAt_id.div (continuousAt_const.sub continuousAt_id) hq
    exact (hcontinuous.log hratio).continuousWithinAt
  continuousOn_invFun := continuous_sigmoid.continuousOn

/-- The chart `x ↦ o + x * c` of the whole line. -/
noncomputable def affineChart (o c : ℝ) (hc : c ≠ 0) : OpenPartialHomeomorph ℝ ℝ where
  toFun x := o + x * c
  invFun y := (y - o) / c
  source := Set.univ
  target := Set.univ
  map_source' _ _ := trivial
  map_target' _ _ := trivial
  left_inv' x _ := by
    field_simp
    ring
  right_inv' y _ := by
    field_simp
    ring
  open_source := isOpen_univ
  open_target := isOpen_univ
  continuousOn_toFun := by fun_prop
  continuousOn_invFun := by fun_prop

open Classical in
/-- The chart of a bijection, with domains that are composed with the maps. -/
noncomputable def chart : Bijection ℝ → OpenPartialHomeomorph ℝ ℝ
  | .identity => .refl ℝ
  | .log => Real.expPartialHomeomorph.symm
  | .logit => logitChart
  | .affine offset slope =>
    if hc : slope.real?.getD 1 ≠ 0 then affineChart (offset.real?.getD 0) (slope.real?.getD 1) hc
    else .refl ℝ
  | .compose outer inner => inner.chart.trans outer.chart
  | .inverse b => b.chart.symm

/-- All offsets and slopes are numbers, and no slope is zero or the integer of 64 bits that has no
opposite. -/
def Regular : Bijection ℝ → Prop
  | .identity | .log | .logit => True
  | .affine offset slope =>
    (∃ o, offset.Denotes o) ∧ (∃ c, slope.Denotes c ∧ c ≠ 0) ∧ slope.integer? ≠ some (-2 ^ 63)
  | .compose outer inner => outer.Regular ∧ inner.Regular
  | .inverse b => b.Regular

/-- The bijection computes a chart, its inverse, and the logarithm of the absolute derivative of the
inverse. -/
structure Charted (b : Bijection ℝ) (e : OpenPartialHomeomorph ℝ ℝ) : Prop where
  exact : b.Exact e.symm e
  slope : ∀ y ∈ e.target, ∃ D, D ≠ 0 ∧ HasDerivAt e.symm D y ∧ Maps b.logJacobian y (Real.log |D|)

variable {e e' : OpenPartialHomeomorph ℝ ℝ} {D : ℝ → ℝ}

/-- At known reals the logarithm of the derivative is as at computed ones. -/
theorem Exact.maps_logJacobian (h : b.Exact F G) {y s : ℝ}
    (hscalar : b.logJacobian (.scalar y) = .ok (.scalar s)) : Maps b.logJacobian y s := by
  obtain ⟨s', hs'⟩ := h.logJacobian y
  obtain ⟨u, hu, halike⟩ := hs' _ (alike_scalar y)
  cases hu.symm.trans hscalar
  obtain rfl : s' = s := Tensor.scalar_inj (Except.ok.inj halike.toTensor_eq)
  exact hs'

/-- A bijection whose backward direction is smooth everywhere. -/
theorem Charted.of_smooth (hexact : b.Exact e.symm e) (hsmooth : b.Smooth e.symm D) :
    b.Charted e where
  exact := hexact
  slope y _ := ⟨D y, hsmooth.ne_zero y, hsmooth.derivative y,
    hexact.maps_logJacobian (hsmooth.logJacobian y)⟩

/-- The identity goes through the trivial chart. -/
theorem charted_identity : (identity : Bijection ℝ).Charted (.refl ℝ) :=
  .of_smooth Exact.identity Smooth.identity

/-- The logarithm goes through the chart that undoes the exponential. -/
theorem charted_log : (log : Bijection ℝ).Charted Real.expPartialHomeomorph.symm :=
  .of_smooth Exact.log Smooth.log

/-- The logit goes through its chart. -/
theorem charted_logit : (logit : Bijection ℝ).Charted logitChart :=
  .of_smooth Exact.logit Smooth.logit

/-- An affine map whose slope is not zero goes through the affine chart. -/
theorem charted_affine (ho : offset.Denotes o) (hslope : slope.Denotes c) (hc : c ≠ 0)
    (hopposite : slope.integer? ≠ some (-2 ^ 63)) :
    (affine offset slope).Charted (affineChart o c hc) :=
  have hexact := Exact.affine_of_denotes ho hslope hc hopposite
  .of_smooth hexact (Smooth.affine_of_denotes ho hslope hc hopposite)

/-- The chain rule: the derivative of the inner transform is taken at the point between the two. -/
theorem Charted.compose (hinner : inner.Charted e) (houter : outer.Charted e') :
    (compose outer inner).Charted (e.trans e') where
  exact := hinner.exact.compose houter.exact
  slope y hy := by
    rw [OpenPartialHomeomorph.trans_target] at hy
    obtain ⟨hy, hmiddle⟩ := hy
    obtain ⟨E, hE, hderiv, houterSlope⟩ := houter.slope y hy
    obtain ⟨D, hD, hderiv', hinnerSlope⟩ := hinner.slope (e'.symm y) hmiddle
    refine ⟨D * E, mul_ne_zero hD hE, hderiv'.comp y hderiv, fun v hv => ?_⟩
    obtain ⟨u, hu, hsum⟩ := houterSlope v hv
    obtain ⟨x, hx, hpoint⟩ := houter.exact.backward y v hv
    obtain ⟨w, hw, hsum'⟩ := hinnerSlope x hpoint
    obtain ⟨total, htotal, halike⟩ := add_alike hsum hsum'
    refine ⟨total, ?_, ?_⟩
    · rw [Bijection.logJacobian, hu, ok_bind, hx, ok_bind, hw, ok_bind, htotal]
    · rw [abs_mul, Real.log_mul (abs_ne_zero.mpr hD) (abs_ne_zero.mpr hE), add_comm]
      exact halike

/-- The derivative of an inverse: that of the bijection is taken at the image of the argument. -/
theorem Charted.inverse (h : b.Charted e) : (inverse b).Charted e.symm where
  exact := h.exact.inverse
  slope x hx := by
    have hx : x ∈ e.source := hx
    obtain ⟨D, hD, hderiv, hslope⟩ := h.slope (e x) (e.map_source hx)
    refine ⟨D⁻¹, inv_ne_zero hD, e.symm.hasDerivAt_symm hx hD hderiv, fun v hv => ?_⟩
    obtain ⟨u, hu, hpoint⟩ := h.exact.forward x v hv
    obtain ⟨w, hw, halike⟩ := hslope u hpoint
    refine ⟨w.neg, ?_, ?_⟩
    · rw [Bijection.logJacobian, hu, ok_bind, hw]
      rfl
    · rw [abs_inv, Real.log_inv]
      exact neg_alike halike

/-- Every nesting of regular transforms computes its chart. -/
theorem Regular.charted (h : b.Regular) : b.Charted b.chart := by
  induction b with
  | identity => exact charted_identity
  | log => exact charted_log
  | logit => exact charted_logit
  | affine offset slope =>
    obtain ⟨⟨o, ho⟩, ⟨c, hslope, hc⟩, hopposite⟩ := h
    unfold chart
    simp only [ho.real?_eq, hslope.real?_eq, Option.getD_some, dif_pos hc]
    exact charted_affine ho hslope hc hopposite
  | compose outer inner houter hinner => exact (hinner h.2).compose (houter h.1)
  | inverse b ih => exact (ih h).inverse

/-- Both directions agree at every value, and where the charts are defined also the logarithms of
the derivatives. -/
structure SameMaps (b c : Bijection ℝ) : Prop where
  forward : ∀ v, b.forward v = c.forward v
  backward : ∀ v, b.backward v = c.backward v
  target : b.chart.target = c.chart.target
  logJacobian : ∀ y ∈ b.chart.target, ∃ l, Maps b.logJacobian y l ∧ Maps c.logJacobian y l

/-- Bijections with one chart have one derivative. -/
theorem Regular.exists_logJacobian {c : Bijection ℝ} (hb : b.Regular) (hc : c.Regular)
    (hchart : b.chart = c.chart) :
    ∀ y ∈ b.chart.target, ∃ l, Maps b.logJacobian y l ∧ Maps c.logJacobian y l := by
  intro y hy
  obtain ⟨D, -, hderiv, hslope⟩ := hb.charted.slope y hy
  obtain ⟨D', -, hderiv', hslope'⟩ := hc.charted.slope y (hchart ▸ hy)
  rw [← hchart] at hderiv'
  obtain rfl : D = D' := hderiv.unique hderiv'
  exact ⟨_, hslope, hslope'⟩

/-- The inverse of a composition has the maps of the inverses in reverse order. -/
theorem Regular.sameMaps_inverse (houter : outer.Regular) (hinner : inner.Regular) :
    SameMaps (inverse (outer.compose inner)) (inner.inverse.compose outer.inverse) where
  forward _ := rfl
  backward _ := rfl
  target := rfl
  logJacobian :=
    have hleft : (inverse (outer.compose inner)).Regular := ⟨houter, hinner⟩
    have hright : (inner.inverse.compose outer.inverse).Regular := ⟨hinner, houter⟩
    hleft.exists_logJacobian hright
      (OpenPartialHomeomorph.trans_symm_eq_symm_trans_symm inner.chart outer.chart)

/-- Compositions can be nested in either way. -/
theorem Regular.sameMaps_assoc {middle : Bijection ℝ} (houter : outer.Regular)
    (hmiddle : middle.Regular) (hinner : inner.Regular) :
    SameMaps ((outer.compose middle).compose inner) (outer.compose (middle.compose inner)) where
  forward v := by simp only [Bijection.forward, bind_assoc]
  backward v := by simp only [Bijection.backward, bind_assoc]
  target := by simp only [chart, OpenPartialHomeomorph.trans_assoc]
  logJacobian :=
    have hleft : ((outer.compose middle).compose inner).Regular := ⟨⟨houter, hmiddle⟩, hinner⟩
    have hright : (outer.compose (middle.compose inner)).Regular := ⟨houter, hmiddle, hinner⟩
    hleft.exists_logJacobian hright
      (OpenPartialHomeomorph.trans_assoc inner.chart middle.chart outer.chart).symm

end Bijection

/-! ## The main theorem -/

namespace Transform

variable {s t u : Transform ℝ}

/-- Transforms obey the chain rule in any nesting. On the domain of its chart, the forward direction
of a regular transform computes the chart and the backward direction takes it back; where the
backward direction is defined, it computes the inverse of the chart, and `logJacobian` the logarithm
of its absolute derivative. Inverting a composition is composing the inverses in the opposite order,
and compositions are associative, in all three maps. -/
theorem chain_rule (hs : s.map.Regular) (ht : t.map.Regular) (hu : u.map.Regular) :
    (∀ x ∈ t.map.chart.source, t.map.chart x ∈ t.map.chart.target ∧
      Maps t.map.forward x (t.map.chart x) ∧ Maps t.map.backward (t.map.chart x) x) ∧
    (∀ y ∈ t.map.chart.target, t.map.chart.symm y ∈ t.map.chart.source ∧
      Maps t.map.backward y (t.map.chart.symm y) ∧ Maps t.map.forward (t.map.chart.symm y) y ∧
      ∃ D, D ≠ 0 ∧ HasDerivAt t.map.chart.symm D y ∧ Maps t.map.logJacobian y (Real.log |D|)) ∧
    (s.compose t).inverse.map.SameMaps (t.inverse.compose s.inverse).map ∧
    ((s.compose t).compose u).map.SameMaps (s.compose (t.compose u)).map := by
  have h := ht.charted
  refine ⟨fun x hx => ?_, fun y hy => ?_, hs.sameMaps_inverse ht, hs.sameMaps_assoc ht hu⟩
  · have hback := h.exact.backward (t.map.chart x)
    rw [t.map.chart.left_inv hx] at hback
    exact ⟨t.map.chart.map_source hx, h.exact.forward x, hback⟩
  · have hforward := h.exact.forward (t.map.chart.symm y)
    rw [t.map.chart.right_inv hy] at hforward
    exact ⟨t.map.chart.map_target hy, h.exact.backward y, hforward, h.slope y hy⟩

/-- The logarithm of `1 + 2 * x`, inverted. -/
def halfExp : Transform ℝ := (log.compose (affine (.int 1) (.int 2))).inverse

/-- The inverted logarithm is regular. -/
theorem regular_halfExp : halfExp.map.Regular := by
  have hone : (Value.int 1 : Value ℝ).Denotes ((1 : Int) : ℝ) := ⟨trivial, operand_int rfl⟩
  have htwo : (Value.int 2 : Value ℝ).Denotes ((2 : Int) : ℝ) := ⟨trivial, operand_int rfl⟩
  refine ⟨trivial, ⟨_, hone⟩, ⟨_, htwo, by norm_num⟩, ?_⟩
  simp [Value.int, Value.integer?]

/-- Backward, this is the logarithm of `1 + 2 * x`, which is defined at zero and has the derivative
two there. -/
theorem chain_rule_halfExp :
    halfExp.map.Regular ∧ Maps halfExp.map.backward 0 0 ∧ Maps halfExp.map.forward 0 0 ∧
      Maps halfExp.map.logJacobian 0 (Real.log 2) := by
  obtain ⟨-, htarget, -, -⟩ := chain_rule regular_halfExp regular_halfExp regular_halfExp
  have hchart : halfExp.map.chart =
      ((Bijection.affineChart 1 2 two_ne_zero).trans Real.expPartialHomeomorph.symm).symm := by
    simp [halfExp, Transform.compose, Transform.inverse, Transform.log, Transform.affine,
      Bijection.chart, Value.int, Value.real?]
  have hbackward : ∀ x, halfExp.map.chart.symm x = Real.log (1 + x * 2) := by
    intro x
    rw [hchart]
    rfl
  have hzero : halfExp.map.chart.symm 0 = 0 := by
    rw [hbackward]
    simp
  have hdomain : (0 : ℝ) ∈ halfExp.map.chart.target := by
    rw [hchart]
    refine ⟨trivial, ?_⟩
    change (0 : ℝ) < 1 + 0 * 2
    norm_num
  obtain ⟨-, hback, hforward, D, -, hderiv, hslope⟩ := htarget 0 hdomain
  have hlog : HasDerivAt (fun x : ℝ => Real.log (1 + x * 2)) 2 0 := by
    have hinner : HasDerivAt (fun x : ℝ => 1 + x * 2) 2 0 := by
      simpa using ((hasDerivAt_id (0 : ℝ)).mul_const 2).const_add 1
    simpa using hinner.log (by norm_num)
  rw [funext hbackward] at hderiv
  obtain rfl : D = 2 := hderiv.unique hlog
  rw [hzero] at hback hforward
  rw [abs_two] at hslope
  exact ⟨regular_halfExp, hback, hforward, hslope⟩

end Transform

end BayesGraph
