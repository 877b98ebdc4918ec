import BayesGraph.Proofs.ExactSums

/-!
# The terms of a density

Every term that an evaluation adds up is an array of computed reals: the logarithm of a density or
mass at a value (`logPdf_isDensity`), and the logarithm of the derivative of a transform at a
coordinate (`logJacobian_isDensity`). For transforms this is an induction on the bijection, which
also has to say that the points at which inner bijections are taken are such arrays.
-/

set_option autoImplicit false

namespace BayesGraph

open Outcome

namespace Value

variable {α : Type} [Scalar α] {v w x y : Value α}

/-- Beside a density, its rules are joined to any others. -/
theorem join_density (r : Rules) : r.join .density = .density := by cases r <;> rfl

/-- The rules of a density absorb any others. -/
theorem density_join (r : Rules) : Rules.join .density r = .density := by cases r <;> rfl

/-- An operation on computed values gives a value of a density if one of them is such a value. -/
theorem combine_isDensity {f : α → α → α} (h : x.combine f y = .ok v)
    (hxy : x.IsDensity ∨ y.IsDensity) : v.IsDensity := by
  have hrules : x.origin.join y.origin = .density := by
    rcases hxy with ⟨t, rfl⟩ | ⟨t, rfl⟩
    · exact density_join _
    · exact join_density _
  unfold combine at h
  simp only [bind_eq_ok, pure_eq_ok, hrules] at h
  obtain ⟨a, -, b, -, t, -, rfl⟩ := h
  exact ⟨t, rfl⟩

section Operators

variable {onInts : Int → Int → Int} {onReals : α → α → α} (r : Rules) (t : Tensor α) (w : Value α)

/-- An array on the left is combined with what is on the right. -/
theorem arithmetic_array_left :
    arithmetic onInts onReals (array r t) w = (array r t).combine onReals w := by
  rcases w with (_ | _) | _ | _ | _ <;> rfl

/-- An array on the right is combined with what is on the left. -/
theorem arithmetic_array_right :
    arithmetic onInts onReals w (array r t) = w.combine onReals (array r t) := by
  rcases w with (_ | _) | _ | _ | _ <;> rfl

/-- An array on the left is added entry by entry. -/
theorem add_array_left : (array r t).add w = (array r t).combine (· + ·) w := by
  rcases w with (_ | _) | _ | _ | _ <;> rfl

/-- An array on the right is added entry by entry. -/
theorem add_array_right : w.add (.array r t) = w.combine (· + ·) (.array r t) := by
  rcases w with (_ | _) | _ | _ | _ <;> rfl

/-- From an array it is subtracted entry by entry. -/
theorem sub_array_left : (array r t).sub w = (array r t).combine (· - ·) w :=
  arithmetic_array_left r t w

/-- An array on the left is multiplied entry by entry. -/
theorem mul_array_left : (array r t).mul w = (array r t).combine (· * ·) w := by
  rcases w with (_ | _) | _ | _ | _ <;> rfl

end Operators

/-- A sum with an array of a density is one. -/
theorem add_isDensity (h : x.add y = .ok v) (hxy : x.IsDensity ∨ y.IsDensity) : v.IsDensity := by
  refine combine_isDensity (f := (· + ·)) (x := x) (y := y) ?_ hxy
  rcases hxy with ⟨t, rfl⟩ | ⟨t, rfl⟩
  · rwa [add_array_left] at h
  · rwa [add_array_right] at h

/-- A difference from an array of a density is one. -/
theorem sub_isDensity (h : x.sub y = .ok v) (hx : x.IsDensity) : v.IsDensity := by
  obtain ⟨t, rfl⟩ := hx
  rw [sub_array_left] at h
  exact combine_isDensity h (Or.inl ⟨t, rfl⟩)

/-- A product of an array of a density is one. -/
theorem mul_isDensity (h : x.mul y = .ok v) (hx : x.IsDensity) : v.IsDensity := by
  obtain ⟨t, rfl⟩ := hx
  rw [mul_array_left] at h
  exact combine_isDensity h (Or.inl ⟨t, rfl⟩)

/-- A quotient of computed values is an array of a density. -/
theorem divide_isDensity (h : x.divide .density y = .ok v) : v.IsDensity := by
  unfold divide at h
  simp only [bind_eq_ok, pure_eq_ok] at h
  obtain ⟨_, -, _, -, t, -, rfl⟩ := h
  exact ⟨t, rfl⟩

/-- A quotient of an array of a density is one. -/
theorem quotient_isDensity (h : x.quotient y = .ok v) (hx : x.IsDensity) : v.IsDensity := by
  obtain ⟨t, rfl⟩ := hx
  exact divide_isDensity h

/-- A function of reals gives an array of a density under the rules of a density. -/
theorem lift_isDensity {f : α → α} (h : x.lift .density f = .ok v) : v.IsDensity := by
  unfold lift at h
  simp only [bind_eq_ok, pure_eq_ok] at h
  obtain ⟨t, -, rfl⟩ := h
  exact ⟨_, rfl⟩

/-- The opposite of an array of a density is one. -/
theorem IsDensity.neg (h : x.IsDensity) : x.neg.IsDensity := by
  obtain ⟨t, rfl⟩ := h
  exact ⟨_, rfl⟩

/-! ## Scalar terms -/

/-- The value is one scalar, known or computed. -/
def Holds (v : Value α) (x : α) : Prop := v = real x ∨ v = scalar x

variable {a b : α}

/-- A value that holds a number is converted to the scalar. -/
theorem Holds.toTensor (h : v.Holds a) : v.toTensor = .ok (.scalar a) := by
  rcases h with rfl | rfl <;> rfl

/-- Scalars can be added. -/
theorem Holds.exists_add (hv : v.Holds a) (hw : w.Holds b) :
    ∃ s c, v.add w = .ok s ∧ s.Holds c := by
  rcases hv with rfl | rfl
  · rcases hw with rfl | rfl
    · exact ⟨_, _, rfl, Or.inl rfl⟩
    · exact ⟨_, _, rfl, Or.inr rfl⟩
  · rcases hw with rfl | rfl
    · exact ⟨_, _, rfl, Or.inr rfl⟩
    · exact ⟨_, _, rfl, Or.inr rfl⟩

omit [Scalar α] in
/-- A density term without dimensions is one scalar. -/
theorem IsDensity.exists_scalar (h : v.IsDensity) (hshape : v.shape = []) :
    ∃ c, v = scalar c := by
  obtain ⟨⟨shape, entries, hlength⟩, rfl⟩ := h
  obtain rfl : shape = [] := hshape
  match entries, hlength with
  | [c], _ => exact ⟨c, rfl⟩

end Value

namespace Bijection

variable {α : Type} [Scalar α]

mutual

/-- Forward, an array of a density goes to one. -/
theorem forward_isDensity (b : Bijection α) {x v : Value α} (h : b.forward x = .ok v)
    (hx : x.IsDensity) : v.IsDensity := by
  match b with
  | .identity =>
    cases h
    exact hx
  | .log | .logit => exact Value.lift_isDensity h
  | .affine offset slope =>
    simp only [forward, bind_eq_ok] at h
    obtain ⟨u, hu, hv⟩ := h
    exact Value.add_isDensity hv (Or.inr (Value.mul_isDensity hu hx))
  | .compose outer inner =>
    simp only [forward, bind_eq_ok] at h
    obtain ⟨u, hu, hv⟩ := h
    exact forward_isDensity outer hv (forward_isDensity inner hu hx)
  | .inverse b => exact backward_isDensity b h hx

/-- Backward, an array of a density goes to one. -/
theorem backward_isDensity (b : Bijection α) {y v : Value α} (h : b.backward y = .ok v)
    (hy : y.IsDensity) : v.IsDensity := by
  match b with
  | .identity =>
    cases h
    exact hy
  | .log | .logit => exact Value.lift_isDensity h
  | .affine offset slope =>
    simp only [backward, bind_eq_ok] at h
    obtain ⟨u, hu, hv⟩ := h
    exact Value.quotient_isDensity hv (Value.sub_isDensity hu hy)
  | .compose outer inner =>
    simp only [backward, bind_eq_ok] at h
    obtain ⟨u, hu, hv⟩ := h
    exact backward_isDensity inner hv (backward_isDensity outer hu hy)
  | .inverse b => exact forward_isDensity b h hy

end

/-- The logarithm of the derivative at an array of a density is one. -/
theorem logJacobian_isDensity (b : Bijection α) {y v : Value α} (h : b.logJacobian y = .ok v)
    (hy : y.IsDensity) : v.IsDensity := by
  induction b generalizing y v with
  | identity =>
    simp only [logJacobian, bind_eq_ok, pure_eq_ok] at h
    obtain ⟨t, -, rfl⟩ := h
    exact ⟨_, rfl⟩
  | log =>
    cases h
    exact hy
  | logit =>
    simp only [logJacobian, bind_eq_ok] at h
    obtain ⟨a, ha, c, -, hv⟩ := h
    exact Value.add_isDensity hv (Or.inl (Value.lift_isDensity ha))
  | affine offset slope =>
    simp only [logJacobian, bind_eq_ok] at h
    obtain ⟨size, -, a, ha, t, -, hv⟩ := h
    exact Value.mul_isDensity hv (Value.lift_isDensity ha).neg
  | compose outer inner ihouter ihinner =>
    simp only [logJacobian, bind_eq_ok] at h
    obtain ⟨a, ha, z, hz, c, -, hv⟩ := h
    exact Value.add_isDensity hv (Or.inl (ihouter ha hy))
  | inverse b ih =>
    simp only [logJacobian, bind_eq_ok, pure_eq_ok] at h
    obtain ⟨z, hz, a, ha, rfl⟩ := h
    exact (ih ha (forward_isDensity b hz hy)).neg

end Bijection

namespace BoundDist

variable {α : Type} [Scalar α] {d : BoundDist α}

/-- The logarithm of a density at a value is an array of a density. -/
theorem logPdf_isDensity {x v : Value α} (h : d.logPdf x = .ok v) : v.IsDensity := by
  simp only [logPdf, bind_eq_ok] at h
  obtain ⟨t, -, params, -, logP, -, h⟩ := h
  split at h
  · simp only [bind_eq_ok] at h
    obtain ⟨low, -, high, -, normalizer, -, scaled, hscaled, inside, -, h⟩ := h
    split at h
    · cases h
      exact Value.sub_isDensity hscaled ⟨logP, rfl⟩
    · simp only [bind_eq_ok, pure_eq_ok] at h
      obtain ⟨u, -, w, -, rfl⟩ := h
      exact ⟨w, rfl⟩
  · cases h
    exact ⟨logP, rfl⟩

end BoundDist

end BayesGraph
