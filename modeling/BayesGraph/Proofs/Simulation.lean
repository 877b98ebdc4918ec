import BayesGraph.Proofs.Walks

/-!
# Walks that go side by side

Two walks through lists of instances that correspond to each other go side by side if each step of
one can be matched by a step of the other, with states and instances that correspond again
(`Walker.Bisimilar`). Then one walk succeeds exactly if the other one does, and they end in states
that correspond. The induction is on the trace of the first walk.
-/

set_option autoImplicit false

namespace BayesGraph

open Outcome

/-- Two computations that succeed together, with results that correspond. -/
def Agree {ε ε' ν μ : Type} (S : ν → μ → Prop) (x : Except ε ν) (y : Except ε' μ) : Prop :=
  (∀ a, x = .ok a → ∃ b, y = .ok b ∧ S a b) ∧ ∀ b, y = .ok b → ∃ a, x = .ok a ∧ S a b

namespace Agree

variable {ε ε' ν μ ν' μ' : Type} {S : ν → μ → Prop} {x : Except ε ν} {y : Except ε' μ}

/-- An agreement goes in both directions. -/
theorem symm (h : Agree S x y) : Agree (flip S) y x := ⟨h.2, h.1⟩

/-- Steps that agree behind steps that agree are sequences that agree. -/
theorem bind {S' : ν' → μ' → Prop} {f : ν → Except ε ν'} {g : μ → Except ε' μ'}
    (h : Agree S x y) (hfg : ∀ a b, x = .ok a → y = .ok b → S a b → Agree S' (f a) (g b)) :
    Agree S' (x >>= f) (y >>= g) := by
  constructor
  · intro c hc
    obtain ⟨a, ha, hc⟩ := bind_eq_ok.mp hc
    obtain ⟨b, hb, hab⟩ := h.1 a ha
    obtain ⟨d, hd, hcd⟩ := (hfg a b ha hb hab).1 c hc
    exact ⟨d, bind_eq_ok.mpr ⟨b, hb, hd⟩, hcd⟩
  · intro d hd
    obtain ⟨b, hb, hd⟩ := bind_eq_ok.mp hd
    obtain ⟨a, ha, hab⟩ := h.2 b hb
    obtain ⟨c, hc, hcd⟩ := (hfg a b ha hb hab).2 d hd
    exact ⟨c, bind_eq_ok.mpr ⟨a, ha, hc⟩, hcd⟩

/-- Related results agree. -/
theorem pure {a : ν} {b : μ} (h : S a b) :
    Agree S (Pure.pure a : Except ε ν) (Pure.pure b : Except ε' μ) := by
  constructor
  · intro a' ha'
    cases ha'
    exact ⟨b, rfl, h⟩
  · intro b' hb'
    cases hb'
    exact ⟨a, rfl, h⟩

/-- An agreement holds for every relation that the given one implies. -/
theorem mono {S' : ν → μ → Prop} (h : Agree S x y) (hS : ∀ a b, S a b → S' a b) :
    Agree S' x y := by
  constructor
  · intro a ha
    obtain ⟨b, hb, hab⟩ := h.1 a ha
    exact ⟨b, hb, hS a b hab⟩
  · intro b hb
    obtain ⟨a, ha, hab⟩ := h.2 b hb
    exact ⟨a, ha, hS a b hab⟩

/-- Steps that agree one by one agree as lists of steps. -/
theorem mapM {R : ν → μ → Prop} {S' : ν' → μ' → Prop} {f : ν → Except ε ν'}
    {g : μ → Except ε' μ'} {as : List ν} {bs : List μ} (h : List.Forall₂ R as bs)
    (hfg : ∀ a b, R a b → Agree S' (f a) (g b)) :
    Agree (List.Forall₂ S') (as.mapM f) (bs.mapM g) := by
  induction h with
  | nil => exact pure List.Forall₂.nil
  | cons hab _ ih =>
    rw [List.mapM_cons, List.mapM_cons]
    refine bind (hfg _ _ hab) fun c d _ _ hcd => ?_
    exact bind ih fun cs ds _ _ hcds => pure (List.Forall₂.cons hcd hcds)

end Agree

namespace Walker

variable {α σ σ' : Type} [Scalar α]

/-- Steps from states and instances that correspond agree on how to go on. -/
structure Bisimilar (w : Walker α σ) (w' : Walker α σ') (S : σ → σ' → Prop)
    (R : Site → Site → Prop) : Prop where
  step : ∀ state state' site site', S state state' → R site site' →
    Agree (fun p q => S p.1 q.1 ∧ List.Forall₂ R p.2 q.2) (w.step state site) (w'.step state' site')

variable {w : Walker α σ} {w' : Walker α σ'} {S : σ → σ' → Prop} {R : Site → Site → Prop}

/-- A bisimulation goes in both directions. -/
theorem Bisimilar.symm (h : Bisimilar w w' S R) : Bisimilar w' w (flip S) (flip R) := by
  refine ⟨fun state' state site' site hstate hsite => ?_⟩
  refine ((h.step state state' site site' hstate hsite).symm).mono fun p q hpq => ?_
  exact ⟨hpq.1, List.Forall₂.flip hpq.2⟩

/-- A walk is matched by a walk that ends in a corresponding state. -/
theorem Bisimilar.runs (h : Bisimilar w w' S R) {state last : σ} {state' : σ'}
    {sites sites' : List Site} (hstate : S state state') (hsites : List.Forall₂ R sites sites')
    (hruns : w.Runs state sites last) : ∃ last', w'.Runs state' sites' last' ∧ S last last' := by
  obtain ⟨events, htrace⟩ := hruns
  induction htrace generalizing state' sites' with
  | done state =>
    cases hsites
    exact ⟨state', runs_nil_iff.mpr rfl, hstate⟩
  | @step state mid last site inner rest events hstep _ ih =>
    cases hsites with
    | @cons _ site' _ rest' hsite hrest =>
      obtain ⟨⟨mid', inner'⟩, hstep', hmid, hinner⟩ :=
        (h.step state state' site site' hstate hsite).1 _ hstep
      obtain ⟨last', hruns', hlast⟩ := ih hmid (List.rel_append hinner hrest)
      exact ⟨last', runs_cons_iff.mpr ⟨mid', inner', hstep', hruns'⟩, hlast⟩

/-- A walk passes over the loop at an instance. -/
def Passes (w : Walker α σ) (state : σ) (site : Site) : Prop :=
  ∃ start stop, site.range? = some (start, stop) ∧ w.strict = false ∧
    ∃ e : Failure, e.IsStuck ∧ (w.context state).evalBounds site start stop = .error e

/-- A step is matched if its visit is, and if the loops that open or are passed over do so on the
other side too. -/
theorem exists_step {state : σ} {state' : σ'} {site site' : Site} (hstate : S state state')
    (hrange : site.range? = none → site'.range? = none)
    (hvisit : ∀ mid, site.range? = none → w.visit state site = .ok mid →
      ∃ mid', w'.visit state' site' = .ok mid' ∧ S mid mid')
    (hopens : ∀ lo hi, (w.context state).Opens site lo hi → (w'.context state').Opens site' lo hi)
    (hpasses : w.Passes state site → w'.Passes state' site')
    (hinner : ∀ lo hi, List.Forall₂ R (site.inner lo hi) (site'.inner lo hi)) {p : σ × List Site}
    (hstep : w.step state site = .ok p) :
    ∃ q, w'.step state' site' = .ok q ∧ S p.1 q.1 ∧ List.Forall₂ R p.2 q.2 := by
  obtain ⟨mid, inner⟩ := p
  rcases step_eq_ok_iff.mp hstep with ⟨hnone, hmid, rfl⟩ | ⟨lo, hi, hopen, rfl, rfl⟩ |
      ⟨start, stop, hsome, hstrict, hstuck, rfl, rfl⟩
  · obtain ⟨mid', hmid', hS⟩ := hvisit mid hnone hmid
    exact ⟨(mid', []), step_eq_ok_iff.mpr (Or.inl ⟨hrange hnone, hmid', rfl⟩), hS, .nil⟩
  · have hopen' := hopens lo hi hopen
    exact ⟨(state', site'.inner lo hi),
      step_eq_ok_iff.mpr (Or.inr (Or.inl ⟨lo, hi, hopen', rfl, rfl⟩)), hstate, hinner lo hi⟩
  · obtain ⟨start', stop', hsome', hstrict', hstuck'⟩ :=
      hpasses ⟨start, stop, hsome, hstrict, hstuck⟩
    exact ⟨(state', []), step_eq_ok_iff.mpr (Or.inr (Or.inr
      ⟨start', stop', hsome', hstrict', hstuck', rfl, rfl⟩)), hstate, .nil⟩

/-- Steps agree if the visits do, and if the same loops open and are passed over. -/
theorem agree_step {state : σ} {state' : σ'} {site site' : Site} (hstate : S state state')
    (hrange : site.range? = none ↔ site'.range? = none)
    (hvisit : site.range? = none → Agree S (w.visit state site) (w'.visit state' site'))
    (hopens : ∀ lo hi, (w.context state).Opens site lo hi ↔ (w'.context state').Opens site' lo hi)
    (hpasses : w.Passes state site ↔ w'.Passes state' site')
    (hinner : ∀ lo hi, List.Forall₂ R (site.inner lo hi) (site'.inner lo hi)) :
    Agree (fun p q => S p.1 q.1 ∧ List.Forall₂ R p.2 q.2) (w.step state site)
      (w'.step state' site') := by
  constructor
  · intro p hp
    exact exists_step hstate hrange.mp (fun mid hnone hmid => (hvisit hnone).1 mid hmid)
      (fun lo hi => (hopens lo hi).mp) hpasses.mp hinner hp
  · intro q hq
    obtain ⟨p, hp, hS, hR⟩ := exists_step (S := flip S) (R := flip R) hstate hrange.mpr
      (fun mid hnone hmid => (hvisit (hrange.mpr hnone)).2 mid hmid)
      (fun lo hi => (hopens lo hi).mpr) hpasses.mpr (fun lo hi => (hinner lo hi).flip) hq
    exact ⟨p, hp, hS, hR.flip⟩

end Walker

end BayesGraph
