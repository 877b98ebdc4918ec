import BayesGraph.Proofs.Walks

/-!
# Walks that fail

A walk that fails has come to an instance at which its step fails. `Walker.Comes` says which
instances a walk comes to, in which states, whether it goes on to the end or not: with it, a failed
walk can be taken apart like a successful one by its trace. Two walkers that take the same steps at
all instances that one of them comes to have the same outcome.
-/

set_option autoImplicit false

namespace BayesGraph

open Outcome

namespace Walker

variable {α σ : Type} [Scalar α]

/-- A walk from a state through a list of instances comes to an instance in some state. -/
inductive Comes (w : Walker α σ) : σ → List Site → σ → Site → Prop
  | here (state : σ) (site : Site) (rest : List Site) : Comes w state (site :: rest) state site
  | later {state mid state' : σ} {site site' : Site} {inner rest : List Site}
      (hstep : w.step state site = .ok (mid, inner))
      (hrest : Comes w mid (inner ++ rest) state' site') : Comes w state (site :: rest) state' site'

/-- A walk comes to an instance at which its step fails. -/
def Fails (w : Walker α σ) (state : σ) (sites : List Site) (e : Failure) : Prop :=
  ∃ state' site, w.Comes state sites state' site ∧ w.step state' site = .error e

variable {w w' : Walker α σ} {state state' : σ} {e : Failure}

/-- Without instances nothing fails. -/
theorem not_fails_nil : ¬ w.Fails state [] e := by
  rintro ⟨_, _, hcomes, -⟩
  cases hcomes

/-- A run fails at its first instance, or behind it. -/
theorem fails_cons_iff {site : Site} {rest : List Site} :
    w.Fails state (site :: rest) e ↔
      w.step state site = .error e ∨
        ∃ mid inner, w.step state site = .ok (mid, inner) ∧ w.Fails mid (inner ++ rest) e := by
  constructor
  · rintro ⟨_, _, hcomes, herror⟩
    cases hcomes with
    | here => exact Or.inl herror
    | later hstep hrest => exact Or.inr ⟨_, _, hstep, _, _, hrest, herror⟩
  · rintro (herror | ⟨mid, inner, hstep, state', site', hrest, herror⟩)
    · exact ⟨state, site, .here state site rest, herror⟩
    · exact ⟨state', site', .later hstep hrest, herror⟩

/-- A walk comes to all instances of its trace. -/
theorem Trace.comes {sites : List Site} {events : List (σ × Site)}
    (h : w.Trace state sites events state') {x : σ × Site} (hx : x ∈ events) :
    w.Comes state sites x.1 x.2 := by
  induction h with
  | done => simp at hx
  | step hstep _ ih =>
    rcases List.mem_cons.mp hx with rfl | hx
    · exact .here _ _ _
    · exact .later hstep (ih hx)

/-- A walker that takes the same steps wherever a walk comes to has the same trace. -/
theorem Trace.congr {sites : List Site} {events : List (σ × Site)}
    (h : w.Trace state sites events state')
    (hsame : ∀ x ∈ events, w.step x.1 x.2 = w'.step x.1 x.2) :
    w'.Trace state sites events state' := by
  induction h with
  | done => exact .done _
  | step hstep _ ih =>
    rw [hsame _ List.mem_cons_self] at hstep
    exact .step hstep (ih fun x hx => hsame x (List.mem_cons_of_mem _ hx))

/-- It comes to the same instances as well. -/
theorem Comes.congr {sites : List Site} {site : Site} (h : w.Comes state sites state' site)
    (hsame : ∀ s x, w.Comes state sites s x → w.step s x = w'.step s x) :
    w'.Comes state sites state' site := by
  induction h with
  | here => exact .here _ _ _
  | later hstep _ ih =>
    have hstep' := hsame _ _ (.here _ _ _)
    rw [hstep] at hstep'
    exact .later hstep'.symm (ih fun s x hx => hsame s x (.later hstep hx))

/-- In every state in which a walk comes to an instance holds what held at first and what every step
keeps. -/
theorem Comes.invariant {sites : List Site} {site : Site} (h : w.Comes state sites state' site)
    (P : σ → Prop) (hstart : P state)
    (hkeep : ∀ s s' x inner, P s → w.step s x = .ok (s', inner) → P s') : P state' := by
  induction h with
  | here => exact hstart
  | later hstep _ ih => exact ih (hkeep _ _ _ _ hstart hstep)

/-- A walk that succeeds has come to the instances of its trace. -/
theorem Comes.mem_events {final : σ} {sites : List Site} {site : Site}
    (h : w.Comes state sites state' site) {events : List (σ × Site)}
    (htrace : w.Trace state sites events final) : (state', site) ∈ events := by
  induction h generalizing events with
  | here =>
    cases htrace with
    | step => exact List.mem_cons_self
  | later hstep _ ih =>
    cases htrace with
    | step hstep' hrest =>
      rw [hstep] at hstep'
      cases hstep'
      exact List.mem_cons_of_mem _ (ih hrest)

end Walker

namespace Stmt

variable {α σ : Type} [Scalar α] {w w' : Walker α σ}

mutual

/-- The walk through a statement fails, or what comes behind it does, exactly if the walk through
its instance and the instances behind it fails. -/
theorem walk_fails_iff (s : Stmt) (env : LoopValues) {state : σ} {rest : List Site} {e : Failure} :
    (walk w env state s = .error e ∨ ∃ mid, walk w env state s = .ok mid ∧ w.Fails mid rest e) ↔
      w.Fails state (⟨s, env⟩ :: rest) e := by
  rw [Walker.fails_cons_iff]
  match s with
  | .loop comment var (.range start stop) body =>
    have hfold : ∀ (is : List Int) (state : σ),
        ((is.foldlM (fun s i => walkAll w (env.bind var.shown i) s body) state = .error e) ∨
          ∃ mid, is.foldlM (fun s i => walkAll w (env.bind var.shown i) s body) state = .ok mid ∧
            w.Fails mid rest e) ↔
        w.Fails state ((is.flatMap fun i =>
          body.map fun s => (⟨s, env.bind var.shown i⟩ : Site)) ++ rest) e := by
      intro is
      induction is with
      | nil => simp
      | cons i is ih =>
        intro state
        rw [List.flatMap_cons, List.append_assoc, ← walkAll_fails_iff body]
        simp only [List.foldlM_cons, bind_eq_ok, bind_eq_error, ← ih]
        constructor
        · rintro ((h | ⟨next, hnext, h⟩) | ⟨mid, ⟨next, hnext, hmid⟩, h⟩)
          · exact Or.inl h
          · exact Or.inr ⟨next, hnext, Or.inl h⟩
          · exact Or.inr ⟨next, hnext, Or.inr ⟨mid, hmid, h⟩⟩
        · rintro (h | ⟨next, hnext, h | ⟨mid, hmid, h⟩⟩)
          · exact Or.inl (Or.inl h)
          · exact Or.inl (Or.inr ⟨next, hnext, h⟩)
          · exact Or.inr ⟨mid, ⟨next, hnext, hmid⟩, h⟩
    rw [walk]
    unfold Walker.step Site.range?
    dsimp only
    cases w.bounds state ⟨.loop comment var (.range start stop) body, env⟩ start stop with
    | error e' => simp
    | ok bounds =>
      cases bounds with
      | none => simp
      | some b =>
        obtain ⟨lo, hi⟩ := b
        simp only [ok_bind, hfold, pure_eq_ok, Prod.mk.injEq]
        constructor
        · intro h
          exact Or.inr ⟨state, _, ⟨rfl, rfl⟩, h⟩
        · rintro (h | ⟨_, _, ⟨rfl, rfl⟩, h⟩)
          · cases h
          · exact h
  | .loop _ _ (.literal _) _ | .loop _ _ (.var _) _ | .loop _ _ .colon _ | .loop _ _ (.index _ _) _
  | .loop _ _ (.negate _) _ | .loop _ _ (.add _ _) _ | .loop _ _ (.sub _ _) _
  | .loop _ _ (.mul _ _) _ | .loop _ _ (.div _ _) _ | .loop _ _ (.pow _ _) _
  | .loop _ _ (.call _ _) _ | .loop _ _ (.ref _) _ | .loop _ _ (.refArray _ _) _
  | .loop _ _ (.raw _) _ | .loop _ _ (.rawList _) _ | .sample _ _ _ | .assign _ _ _ | .raw _ =>
    rw [walk] <;> simp [Walker.step, Site.range?]

/-- The same for a list of statements. -/
theorem walkAll_fails_iff (ss : List Stmt) (env : LoopValues) {state : σ} {rest : List Site}
    {e : Failure} :
    (walkAll w env state ss = .error e ∨
        ∃ mid, walkAll w env state ss = .ok mid ∧ w.Fails mid rest e) ↔
      w.Fails state (ss.map (fun s => ⟨s, env⟩) ++ rest) e := by
  match ss with
  | [] => simp [walkAll]
  | s :: ss =>
    rw [List.map_cons, List.cons_append, ← walk_fails_iff s env]
    simp only [walkAll, bind_eq_ok, bind_eq_error, ← walkAll_fails_iff ss env]
    constructor
    · rintro ((h | ⟨next, hnext, h⟩) | ⟨mid, ⟨next, hnext, hmid⟩, h⟩)
      · exact Or.inl h
      · exact Or.inr ⟨next, hnext, Or.inl h⟩
      · exact Or.inr ⟨next, hnext, Or.inr ⟨mid, hmid, h⟩⟩
    · rintro (h | ⟨next, hnext, h | ⟨mid, hmid, h⟩⟩)
      · exact Or.inl (Or.inl h)
      · exact Or.inl (Or.inr ⟨next, hnext, h⟩)
      · exact Or.inr ⟨mid, ⟨next, hnext, hmid⟩, h⟩

end

/-- A walk fails exactly if it comes to an instance at which its step fails. -/
theorem walkAll_eq_error_iff {ss : List Stmt} {env : LoopValues} {state : σ} {e : Failure} :
    walkAll w env state ss = .error e ↔ w.Fails state (ss.map fun s => ⟨s, env⟩) e := by
  have h : (walkAll w env state ss = .error e ∨
      ∃ mid, walkAll w env state ss = .ok mid ∧ w.Fails mid [] e) ↔ _ := walkAll_fails_iff ss env
  rw [List.append_nil] at h
  rw [← h]
  simp [Walker.not_fails_nil]

/-- Walks have the same outcome if the steps are the same at all instances that one comes to. -/
theorem walkAll_congr {ss : List Stmt} {env : LoopValues} {state : σ}
    (hsame : ∀ s x, w.Comes state (ss.map fun s => ⟨s, env⟩) s x → w.step s x = w'.step s x) :
    walkAll w env state ss = walkAll w' env state ss := by
  cases h : walkAll w env state ss with
  | ok state' =>
    obtain ⟨events, htrace⟩ := walkAll_eq_ok_iff.mp h
    have htrace' := htrace.congr fun x hx => hsame x.1 x.2 (htrace.comes hx)
    exact (walkAll_eq_ok_iff.mpr ⟨events, htrace'⟩).symm
  | error e =>
    obtain ⟨state', site, hcomes, herror⟩ := walkAll_eq_error_iff.mp h
    refine (walkAll_eq_error_iff.mpr ⟨state', site, hcomes.congr hsame, ?_⟩).symm
    rw [← hsame state' site hcomes, herror]

end Stmt

end BayesGraph
