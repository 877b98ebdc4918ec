import Mathlib
import BayesGraph.Proofs.Inverses
import BayesGraph.Proofs.Safety

/-!
# Placing a parameter

A parameter is placed by the transform of its distribution, from its coordinate when a density is
evaluated and from its assigned value when an assignment is turned into coordinates. The two
distributions differ in that the second one has parameters and bounds that are known
(`BoundDist.Alike`). Still the coordinate and the value determine each other: what one direction
takes to a value, the other takes back to its coordinate.
-/

set_option autoImplicit false

namespace BayesGraph

open Outcome ExactReals

namespace BoundDist

open Value

variable {d d' : BoundDist ℝ} {s : Support ℝ} {slope v : Value ℝ} {x y : ℝ}

/-- The same distribution with known reals. -/
structure Alike (d d' : BoundDist ℝ) : Prop where
  family : d'.family = d.family
  params : List.Forall₂ Value.Alike d.params d'.params
  lower : Option.Rel Value.Alike d.lower d'.lower
  upper : Option.Rel Value.Alike d.upper d'.upper

/-- The bounds of the support are not the same number, and arithmetic on them is exact. -/
def Regular (d : BoundDist ℝ) : Prop := ∀ s, d.support = .ok s → s.Proper ∧ s.Exact

/-- The support of the second distribution is that of the first one in another form, and arithmetic
on its bounds is exact. -/
def SharesSupport (d d' : BoundDist ℝ) : Prop :=
  ∀ s, d.support = .ok s → ∃ s', d'.support = .ok s' ∧ s.Stands s' ∧ s'.Exact

/-- Bounds that match exact bounds are exact. -/
theorem exact_of_matches {s' : Support ℝ} (h : s.Exact)
    (hbounds : ∀ w ∈ s'.bounds, ∃ v ∈ s.bounds, Value.Matches v w) : s'.Exact where
  opposite w hw := by
    obtain ⟨v, hv, hvw⟩ := hbounds w hw
    rw [hvw.real?_eq]
    exact h.opposite v hv
  signed r n hw := by
    obtain ⟨v, hv, hvw⟩ := hbounds _ hw
    exact h.signed r n (hvw.eq_word ▸ hv)
  small r u hu w hw a ha := by
    obtain ⟨v, hv, hvw⟩ := hbounds _ hu
    obtain ⟨v', hv', hvw'⟩ := hbounds w hw
    rw [hvw'.real?_eq] at ha
    exact h.small r u (hvw.eq_word ▸ hv) v' hv' a ha

/-- Distributions that are alike have the same support. -/
theorem Alike.sharesSupport (hfaithful : d.family.Faithful) (hregular : d.Regular)
    (hd : d.Alike d') : d.SharesSupport d' := by
  intro s hs
  have hexact := (hregular s hs).2
  unfold support at hs ⊢
  rw [hd.family, ← hd.params.length_eq]
  split at hs
  · cases hs
  · simp only [bind_eq_ok, pure_eq_ok] at hs ⊢
    obtain ⟨lower, hlower, upper, hupper, rfl⟩ := hs
    have hbounds := hfaithful d.params d'.params hd.params
    obtain ⟨lower', hlower', hl⟩ := tighterBound_matches hbounds.lower hd.lower hlower
    obtain ⟨upper', hupper', hu⟩ := tighterBound_matches hbounds.upper hd.upper hupper
    refine ⟨⟨lower', upper'⟩, ⟨lower', hlower', upper', hupper', rfl⟩,
      ⟨optionRel_imp hl fun _ _ h => h.stands, optionRel_imp hu fun _ _ h => h.stands⟩, ?_⟩
    refine exact_of_matches hexact fun w hw => ?_
    rcases List.mem_append.mp hw with hw | hw
    · obtain ⟨v, hv, hvw⟩ := exists_of_optionRel hl hw
      exact ⟨v, List.mem_append_left _ hv, hvw⟩
    · obtain ⟨v, hv, hvw⟩ := exists_of_optionRel hu hw
      exact ⟨v, List.mem_append_right _ hv, hvw⟩

/-- A coordinate is constrained by the inverse of the transform, together with its slope. -/
theorem toConstrained_eq_ok {y : Value ℝ} {p : Value ℝ × Value ℝ} :
    d.toConstrained y = .ok p ↔
      ∃ t, d.transform = .ok t ∧ t.map.backward y = .ok p.1 ∧ t.map.logJacobian y = .ok p.2 := by
  obtain ⟨u, w⟩ := p
  unfold toConstrained
  simp only [bind_eq_ok, pure_eq_ok, Prod.mk.injEq]
  constructor
  · rintro ⟨t, ht, a, ha, b, hb, rfl, rfl⟩
    exact ⟨t, ht, ha, hb⟩
  · rintro ⟨t, ht, ha, hb⟩
    exact ⟨t, ht, _, ha, _, hb, rfl, rfl⟩

/-- The transforms of two distributions with the same support, of which the first one takes a
coordinate to a number. -/
theorem exists_inverts (hregular : d.Regular) (hd : d.SharesSupport d')
    (h : d.toConstrained (.scalar y) = .ok (.scalar x, slope)) :
    ∃ t t' F G, d.transform = .ok t ∧ d'.transform = .ok t' ∧ t.map.Exact F G ∧
      t'.map.Exact F G ∧ F y = x ∧ ∀ a, G (F a) = a := by
  obtain ⟨t, ht, hback, -⟩ := toConstrained_eq_ok.mp h
  obtain ⟨s, hs, hof⟩ := bind_eq_ok.mp ht
  obtain ⟨s', hs', hstands, hexact'⟩ := hd s hs
  obtain ⟨F, G, hinverts⟩ := Transform.exists_inverts hof hback rfl (hregular s hs).1
    (hregular s hs).2 hexact' hstands
  obtain ⟨t', ht', hexact'⟩ := hinverts.known
  have hF : F y = x := by
    have hscalar := hinverts.exact.backward_scalar y
    rw [hback, Except.ok.injEq] at hscalar
    exact (Tensor.scalar_inj (Value.array.inj hscalar).2).symm
  refine ⟨t, t', F, G, ht, ?_, hinverts.exact, hexact', hF, hinverts.left⟩
  exact bind_eq_ok.mpr ⟨s', hs', ht'⟩

/-- A value is taken back to its coordinate. -/
theorem toUnconstrained_of_toConstrained (hregular : d.Regular)
    (hd : d.SharesSupport d') (h : d.toConstrained (.scalar y) = .ok (.scalar x, slope))
    (hv : Value.Alike (.scalar x) v) :
    ∃ u, d'.toUnconstrained v = .ok u ∧ Value.Alike (.scalar y) u := by
  obtain ⟨t, t', F, G, -, ht', -, hexact, rfl, hleft⟩ :=
    exists_inverts hregular hd h
  obtain ⟨u, hu, halike⟩ := hexact.forward (F y) v hv
  rw [hleft] at halike
  exact ⟨u, bind_eq_ok.mpr ⟨t', ht', hu⟩, halike⟩

/-- A known coordinate is taken to the value of the computed one. -/
theorem toConstrained_alike (hregular : d.Regular)
    (hd : d.SharesSupport d') (h : d.toConstrained (.scalar y) = .ok (.scalar x, slope))
    (hv : Value.Alike (.scalar y) v) :
    ∃ u slope', d'.toConstrained v = .ok (u, slope') ∧ Value.Alike (.scalar x) u := by
  obtain ⟨t, t', F, G, -, ht', -, hexact, rfl, -⟩ :=
    exists_inverts hregular hd h
  obtain ⟨u, hu, halike⟩ := hexact.backward y v hv
  obtain ⟨a, hslope⟩ := hexact.logJacobian y
  obtain ⟨w, hw, -⟩ := hslope v hv
  exact ⟨u, w, toConstrained_eq_ok.mpr ⟨t', ht', hu, hw⟩, halike⟩

/-- The logarithm of the derivative is a number, too. -/
theorem exists_slope (hregular : d.Regular) (hd : d.SharesSupport d')
    (h : d.toConstrained (.scalar y) = .ok (.scalar x, slope)) : ∃ a, slope = .scalar a := by
  obtain ⟨t, t', F, G, ht, -, hexact, -, -, -⟩ := exists_inverts hregular hd h
  obtain ⟨t₁, ht₁, -, hslope⟩ := toConstrained_eq_ok.mp h
  cases ht.symm.trans ht₁
  obtain ⟨a, ha⟩ := hexact.logJacobian_scalar y
  exact ⟨a, Except.ok.inj (hslope.symm.trans ha)⟩

/-- A point strictly inside the support that is taken to a number has this coordinate. -/
theorem exists_coordinate (hregular : d.Regular) (hd : d.SharesSupport d')
    (h : d.toUnconstrained (.scalar x) = .ok v) (hv : v.shape = [])
    (hinside : ∀ s, d.support = .ok s → s.Inside x) :
    ∃ y a, d.toConstrained (.scalar y) = .ok (.scalar x, .scalar a) := by
  obtain ⟨t, ht, hforward⟩ := bind_eq_ok.mp h
  obtain ⟨s, hs, hof⟩ := bind_eq_ok.mp ht
  obtain ⟨z, hz⟩ := Transform.exists_backward_of_forward hof hforward hv 0
  obtain ⟨s', hs', hstands, hexact'⟩ := hd s hs
  obtain ⟨F, G, hinverts⟩ :=
    Transform.exists_inverts hof hz rfl (hregular s hs).1 (hregular s hs).2 hexact' hstands
  have hback := hinverts.exact.backward_scalar (G x)
  rw [hinverts.right x (hinside s hs)] at hback
  obtain ⟨a, ha⟩ := hinverts.exact.logJacobian_scalar (G x)
  exact ⟨G x, a, toConstrained_eq_ok.mpr ⟨t, ht, hback, ha⟩⟩

end BoundDist

end BayesGraph
