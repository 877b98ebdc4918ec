import Mathlib.Data.List.Perm.Basic
import BayesGraph.Evaluation
import BayesGraph.Proofs.Broadcasting
import BayesGraph.Proofs.Outcome

/-!
# Sums in exact arithmetic

Machine numbers round after every addition, so the order of the terms of a sum matters. Scalars are
exact if addition is commutative and associative and nothing is flushed. Over such scalars a sum of
density terms is the same in every order (`addTerms_perm`): one more term and then another one can
be added in either order, and every rearrangement of a list is made of such exchanges.
-/

set_option autoImplicit false

namespace BayesGraph

open Outcome

/-- Scalars without rounding, as far as sums are concerned. -/
class ExactScalar (α : Type) [Scalar α] : Prop where
  add_comm : ∀ x y : α, x + y = y + x
  add_assoc : ∀ x y z : α, x + y + z = x + (y + z)
  flush_eq : ∀ x : α, Scalar.flush x = x

namespace ExactScalar

variable {α : Type} [Scalar α] [ExactScalar α]

/-- Operations take and return scalars as they are. -/
@[simp] theorem settle_eq (rules : Rules) (x : α) : rules.settle x = x := by
  cases rules with
  | folding => rfl
  | density => exact flush_eq x

/-- A function of one scalar is applied as it is. -/
theorem unary_eq (rules : Rules) (f : α → α) : rules.unary f = f := by
  funext x
  simp only [Rules.unary, settle_eq]

/-- A function of two scalars is applied as it is. -/
theorem binary_eq (rules : Rules) (f : α → α → α) : rules.binary f = f := by
  funext x y
  simp only [Rules.binary, settle_eq]

end ExactScalar

namespace Value

variable {α : Type} [Scalar α]

/-- Is the value an array of reals of a density? -/
def IsDensity (v : Value α) : Prop := ∃ t, v = .array .density t

/-- The sum of two arrays of a density. -/
theorem add_density (s t : Tensor α) :
    (array .density s).add (.array .density t) =
      (zip .density (Rules.binary .density (· + ·)) s t).map (array .density) := by
  change (do return array .density (← zip .density (Rules.binary .density (· + ·)) s t)) = _
  cases zip .density (Rules.binary .density ((· + ·) : α → α → α)) s t <;> rfl

/-- A known real beside an array of a density counts as an array without dimensions. -/
theorem add_real_density (x : α) (t : Tensor α) :
    (real x).add (.array .density t) = (array .density (.scalar x)).add (.array .density t) := rfl

/-- Two arrays are combined by an operation if their shapes fit. -/
theorem zip_eq_ok_iff {β γ δ : Type} {rules : Rules} {f : β → γ → δ} {a : Tensor β} {b : Tensor γ}
    {c : Tensor δ} : zip rules f a b = .ok c ↔ Tensor.zipWith? f a b = some c := by
  unfold zip
  split
  · next t ht => rw [ht, Except.ok.injEq, Option.some.injEq]
  · next hnone =>
    rw [hnone]
    split_ifs <;> simp

/-- The sum of two arrays of a density is computed entry by entry, between flushed entries. -/
theorem add_density_eq_ok_iff_settled {s t : Tensor α} {v : Value α} :
    (array .density s).add (.array .density t) = .ok v ↔
      ∃ u, Tensor.zipWith? (Rules.binary .density (· + ·)) s t = some u ∧
        array .density u = v := by
  rw [add_density, map_eq_ok]
  simp only [zip_eq_ok_iff]

section Exact

variable [ExactScalar α]

/-- Without rounding, the sum of two arrays is their sum entry by entry. -/
theorem add_density_eq_ok_iff {s t : Tensor α} {v : Value α} :
    (array .density s).add (.array .density t) = .ok v ↔
      ∃ u, Tensor.zipWith? (· + ·) s t = some u ∧ array .density u = v := by
  rw [add_density_eq_ok_iff_settled, ExactScalar.binary_eq]

/-- Two arrays of a density can be added to a third one in either order. -/
theorem add_density_right_comm {s t u : Tensor α} {v : Value α}
    (h : (do (← (array .density s).add (.array .density t)).add (.array .density u)) =
      Except.ok v) :
    (do (← (array .density s).add (.array .density u)).add (.array .density t)) =
      Except.ok v := by
  have hcomm : ∀ x y z : α, x + y + z = x + z + y := by
    intro x y z
    rw [ExactScalar.add_assoc, ExactScalar.add_comm y z, ← ExactScalar.add_assoc]
  simp only [bind_eq_ok, add_density_eq_ok_iff] at h ⊢
  obtain ⟨_, ⟨a, ha, rfl⟩, hv⟩ := h
  obtain ⟨w, hw, rfl⟩ := add_density_eq_ok_iff.mp hv
  have hbind : (Tensor.zipWith? (· + ·) s t).bind (Tensor.zipWith? (· + ·) · u) = some w := by
    rw [ha]
    exact hw
  rw [Tensor.zipWith?_right_comm hcomm, Option.bind_eq_some_iff] at hbind
  obtain ⟨b, hb, hw'⟩ := hbind
  exact ⟨_, ⟨b, hb, rfl⟩, add_density_eq_ok_iff.mpr ⟨w, hw', rfl⟩⟩

/-- A sum of density terms is the same in every order of the terms. -/
theorem addTerms_perm {terms terms' : List (Value α)} (hperm : terms.Perm terms')
    (hterms : ∀ v ∈ terms, v.IsDensity) {x : α} {total : Value α}
    (h : Graph.addTerms (.real x) terms = .ok total) :
    Graph.addTerms (.real x) terms' = .ok total := by
  -- a partial sum takes part in an addition like some array of a density
  let I (b : Value α) : Prop := ∃ s : Tensor α, ∀ t : Tensor α,
    b.add (.array .density t) = (array .density s).add (.array .density t)
  unfold Graph.addTerms at h ⊢
  refine foldlM_perm IsDensity I ?_ ?_ hperm hterms ⟨.scalar x, add_real_density x⟩ h
  · rintro b _ c ⟨s, hs⟩ ⟨t, rfl⟩ hc
    rw [hs, add_density_eq_ok_iff] at hc
    obtain ⟨u, -, rfl⟩ := hc
    exact ⟨u, fun _ => rfl⟩
  · rintro b _ _ c ⟨s, hs⟩ ⟨t, rfl⟩ ⟨u, rfl⟩ hc
    rw [hs] at hc ⊢
    exact add_density_right_comm hc

end Exact

end Value

end BayesGraph
