import BayesGraph.Proofs.Settling
import BayesGraph.Walk

/-!
# Walks step by step

A walk works off a list of instances: a loop with known bounds is replaced by the instances of its
body, and any other instance is visited. `Walker.Trace` records the instances in this order, each
with the state in which the walk came to it; a walk succeeds exactly if it has a trace.

`Stmt.reached` lists the instances that one fixed context leads to, loops included. The instances of
a trace lie between those of a context that knows no more than any context of the walk and those of
a context that knows no less.
-/

set_option autoImplicit false

namespace BayesGraph

open Outcome

namespace Site

/-- The bounds of a loop over a range, as they are written. -/
def range? (site : Site) : Option (Expr × Expr) :=
  match site.statement with
  | .loop _ _ (.range start stop) _ => some (start, stop)
  | _ => none

/-- An assignment has no range. -/
theorem range?_of_assign {site : Site} {comment : List String} {lhs rhs : Expr}
    (h : site.statement = .assign comment lhs rhs) : site.range? = none := by
  unfold range?
  rw [h]

/-- The instances in the body of a loop whose variable runs through a range. -/
def inner (site : Site) (lo hi : Int) : List Site :=
  match site.statement with
  | .loop _ var _ body =>
    (integersBetween lo hi).flatMap fun i => body.map fun s => ⟨s, site.env.bind var.shown i⟩
  | _ => []

/-- An instance in the body of a loop is one of its statements with one more loop variable. -/
theorem exists_of_mem_inner {site t : Site} {lo hi : Int} (ht : t ∈ site.inner lo hi) :
    ∃ comment var sequence body s i, site.statement = .loop comment var sequence body ∧
      s ∈ body ∧ t = ⟨s, site.env.bind var.shown i⟩ := by
  unfold inner at ht
  split at ht
  · next comment var sequence body hstatement =>
    obtain ⟨i, -, ht⟩ := List.mem_flatMap.mp ht
    obtain ⟨s, hs, rfl⟩ := List.mem_map.mp ht
    exact ⟨comment, var, sequence, body, s, i, hstatement, hs, rfl⟩
  · cases ht

end Site

namespace Walker

variable {α σ : Type} [Scalar α]

/-- What a walk does at an instance: the next state, and the instances to go on with. -/
def step (w : Walker α σ) (state : σ) (site : Site) : Except Failure (σ × List Site) :=
  match site.range? with
  | none => do
    return (← w.visit state site, [])
  | some (start, stop) => do
    match ← w.bounds state site start stop with
    | none => return (state, [])
    | some (lo, hi) => return (state, site.inner lo hi)

/-- From a state through a list of instances to another state, with the instances in the order in
which the walk comes to them. -/
inductive Trace (w : Walker α σ) : σ → List Site → List (σ × Site) → σ → Prop
  | done (state : σ) : Trace w state [] [] state
  | step {state mid state' : σ} {site : Site} {inner rest : List Site}
      {events : List (σ × Site)} (hstep : w.step state site = .ok (mid, inner))
      (hrest : Trace w mid (inner ++ rest) events state') :
      Trace w state (site :: rest) ((state, site) :: events) state'

/-- There is a trace from one state to another. -/
def Runs (w : Walker α σ) (state : σ) (sites : List Site) (state' : σ) : Prop :=
  ∃ events, w.Trace state sites events state'

variable {w : Walker α σ} {state state' : σ}

/-- A run without instances stays at its state. -/
theorem runs_nil_iff : w.Runs state [] state' ↔ state = state' := by
  constructor
  · rintro ⟨events, h⟩
    cases h
    rfl
  · rintro rfl
    exact ⟨[], .done state⟩

/-- A run takes a step at its first instance, and goes on with what this leads to. -/
theorem runs_cons_iff {site : Site} {rest : List Site} :
    w.Runs state (site :: rest) state' ↔
      ∃ mid inner, w.step state site = .ok (mid, inner) ∧ w.Runs mid (inner ++ rest) state' := by
  constructor
  · rintro ⟨events, h⟩
    cases h with
    | step hstep hrest => exact ⟨_, _, hstep, _, hrest⟩
  · rintro ⟨mid, inner, hstep, events, hrest⟩
    exact ⟨_, .step hstep hrest⟩

/-- A walk has one trace. -/
theorem Trace.unique {sites : List Site} {events events' : List (σ × Site)} {state'' : σ}
    (h : w.Trace state sites events state') (h' : w.Trace state sites events' state'') :
    events = events' ∧ state' = state'' := by
  induction h generalizing events' with
  | done =>
    cases h'
    exact ⟨rfl, rfl⟩
  | step hstep _ ih =>
    cases h' with
    | step hstep' hrest' =>
      rw [hstep] at hstep'
      cases hstep'
      obtain ⟨rfl, rfl⟩ := ih hrest'
      exact ⟨rfl, rfl⟩

/-- A walk ends in one state. -/
theorem Runs.unique {sites : List Site} {state'' : σ} (h : w.Runs state sites state')
    (h' : w.Runs state sites state'') : state' = state'' := by
  obtain ⟨_, h⟩ := h
  obtain ⟨_, h'⟩ := h'
  exact (h.unique h').2

/-- A walk through one list and then another is a walk through both. -/
theorem runs_append_iff {sites more : List Site} :
    w.Runs state (sites ++ more) state' ↔
      ∃ mid, w.Runs state sites mid ∧ w.Runs mid more state' := by
  constructor
  · rintro ⟨events, h⟩
    generalize hall : sites ++ more = all at h
    -- The induction is on the run and not on the sites, since a loop puts its inner sites in front
    -- of those that wait.
    induction h generalizing sites with
    | done state =>
      obtain ⟨rfl, rfl⟩ := List.append_eq_nil_iff.mp hall
      exact ⟨state, runs_nil_iff.mpr rfl, runs_nil_iff.mpr rfl⟩
    | @step state mid last site inner rest events hstep hrest ih =>
      cases sites with
      | nil =>
        rw [List.nil_append] at hall
        subst hall
        exact ⟨state, runs_nil_iff.mpr rfl, _, .step hstep hrest⟩
      | cons first others =>
        obtain ⟨rfl, rfl⟩ := List.cons.inj hall
        obtain ⟨last', hothers, hmore⟩ := ih (List.append_assoc inner others more)
        exact ⟨last', runs_cons_iff.mpr ⟨mid, inner, hstep, hothers⟩, hmore⟩
  · rintro ⟨mid, ⟨events, h⟩, hmore⟩
    induction h with
    | done => exact hmore
    | step hstep _ ih =>
      rw [List.cons_append]
      refine runs_cons_iff.mpr ⟨_, _, hstep, ?_⟩
      rw [← List.append_assoc]
      exact ih hmore

/-- At the end of a trace, and at each of its instances, holds what held at first and what every
step keeps. -/
theorem Trace.invariant {sites : List Site} {events : List (σ × Site)}
    (h : w.Trace state sites events state') (P : σ → Prop) (hstart : P state)
    (hkeep : ∀ e ∈ events, ∀ mid inner, P e.1 → w.step e.1 e.2 = .ok (mid, inner) → P mid) :
    P state' ∧ ∀ e ∈ events, P e.1 := by
  induction h with
  | done => exact ⟨hstart, by simp⟩
  | step hstep _ ih =>
    have hmid := hkeep _ List.mem_cons_self _ _ hstart hstep
    obtain ⟨hend, hevents⟩ := ih hmid fun e he => hkeep e (List.mem_cons_of_mem _ he)
    refine ⟨hend, fun e he => ?_⟩
    rcases List.mem_cons.mp he with rfl | he
    · exact hstart
    · exact hevents e he

/-- From each of its instances on, a trace leads to the end. -/
theorem Trace.of_mem {sites : List Site} {events : List (σ × Site)}
    (h : w.Trace state sites events state') {e : σ × Site} (he : e ∈ events) :
    ∃ rest later, w.Trace e.1 (e.2 :: rest) (e :: later) state' ∧ ∀ f ∈ later, f ∈ events := by
  induction h with
  | done => simp at he
  | step hstep hrest ih =>
    rcases List.mem_cons.mp he with rfl | he
    · exact ⟨_, _, .step hstep hrest, fun f hf => List.mem_cons_of_mem _ hf⟩
    · obtain ⟨rest, later, htrace, hlater⟩ := ih he
      exact ⟨rest, later, htrace, fun f hf => List.mem_cons_of_mem _ (hlater f hf)⟩

end Walker

namespace Stmt

variable {α σ : Type} [Scalar α] {w : Walker α σ}

mutual

/-- The walk through a statement is the trace through its instance. -/
theorem walk_runs_iff (s : Stmt) (env : LoopValues) {state state' : σ} {rest : List Site} :
    (∃ mid, walk w env state s = .ok mid ∧ w.Runs mid rest state') ↔
      w.Runs state (⟨s, env⟩ :: rest) state' := by
  rw [Walker.runs_cons_iff]
  match s with
  | .loop comment var (.range start stop) body =>
    -- A loop is walked turn after turn, while a run has the sites of all its turns in front.
    have hfold : ∀ (is : List Int) (state : σ),
        (∃ mid, is.foldlM (fun s i => walkAll w (env.bind var.shown i) s body) state = .ok mid ∧
          w.Runs mid rest state') ↔
        w.Runs state ((is.flatMap fun i =>
          body.map fun s => (⟨s, env.bind var.shown i⟩ : Site)) ++ rest) state' := by
      intro is
      induction is with
      | nil => simp
      | cons i is ih =>
        intro state
        rw [List.flatMap_cons, List.append_assoc, ← walkAll_runs_iff body]
        simp only [List.foldlM_cons, bind_eq_ok, ← ih]
        constructor
        · rintro ⟨mid, ⟨next, hnext, hmid⟩, hruns⟩
          exact ⟨next, hnext, mid, hmid, hruns⟩
        · rintro ⟨next, hnext, mid, hmid, hruns⟩
          exact ⟨mid, ⟨next, hnext, hmid⟩, hruns⟩
    rw [walk]
    unfold Walker.step Site.range?
    dsimp only
    cases w.bounds state ⟨.loop comment var (.range start stop) body, env⟩ start stop with
    | error e => simp
    | ok bounds =>
      cases bounds with
      | none => simp
      | some b =>
        obtain ⟨lo, hi⟩ := b
        simp only [ok_bind, hfold, pure_eq_ok, Prod.mk.injEq]
        constructor
        · intro h
          exact ⟨state, _, ⟨rfl, rfl⟩, h⟩
        · rintro ⟨_, _, ⟨rfl, rfl⟩, h⟩
          exact h
  | .loop _ _ (.literal _) _ | .loop _ _ (.var _) _ | .loop _ _ .colon _ | .loop _ _ (.index _ _) _
  | .loop _ _ (.negate _) _ | .loop _ _ (.add _ _) _ | .loop _ _ (.sub _ _) _
  | .loop _ _ (.mul _ _) _ | .loop _ _ (.div _ _) _ | .loop _ _ (.pow _ _) _
  | .loop _ _ (.call _ _) _ | .loop _ _ (.ref _) _ | .loop _ _ (.refArray _ _) _
  | .loop _ _ (.raw _) _ | .loop _ _ (.rawList _) _ | .sample _ _ _ | .assign _ _ _ | .raw _ =>
    rw [walk] <;> simp [Walker.step, Site.range?]

/-- The walk through a list of statements is the trace through their instances. -/
theorem walkAll_runs_iff (ss : List Stmt) (env : LoopValues) {state state' : σ}
    {rest : List Site} :
    (∃ mid, walkAll w env state ss = .ok mid ∧ w.Runs mid rest state') ↔
      w.Runs state (ss.map (fun s => ⟨s, env⟩) ++ rest) state' := by
  match ss with
  | [] => simp [walkAll]
  | s :: ss =>
    rw [List.map_cons, List.cons_append, ← walk_runs_iff s env]
    simp only [walkAll, bind_eq_ok, ← walkAll_runs_iff ss env]
    constructor
    · rintro ⟨mid, ⟨next, hnext, hmid⟩, hruns⟩
      exact ⟨next, hnext, mid, hmid, hruns⟩
    · rintro ⟨next, hnext, mid, hmid, hruns⟩
      exact ⟨mid, ⟨next, hnext, hmid⟩, hruns⟩

end

/-- A walk succeeds exactly if it has a trace. -/
theorem walkAll_eq_ok_iff {ss : List Stmt} {env : LoopValues} {state state' : σ} :
    walkAll w env state ss = .ok state' ↔ w.Runs state (ss.map fun s => ⟨s, env⟩) state' := by
  have h : (∃ mid, walkAll w env state ss = .ok mid ∧ w.Runs mid [] state') ↔ _ :=
    walkAll_runs_iff ss env
  rw [List.append_nil] at h
  rw [← h]
  simp [Walker.runs_nil_iff]

end Stmt

/-! ## Loops that open -/

namespace Context

variable {α : Type} [Scalar α]

/-- The values of the two bounds of a loop. -/
def evalBounds (ctx : Context α) (site : Site) (start stop : Expr) :
    Except Failure (Int × Int) := do
  let lo ← ctx.evalIndex site start
  let hi ← ctx.evalIndex site stop
  return (lo, hi)

/-- In a context, the loop at an instance has the bounds `lo` and `hi`. -/
def Opens (ctx : Context α) (site : Site) (lo hi : Int) : Prop :=
  ∃ start stop, site.range? = some (start, stop) ∧ ctx.evalBounds site start stop = .ok (lo, hi)

/-- The bounds of a loop are determined by the context. -/
theorem Opens.unique {ctx : Context α} {site : Site} {lo hi lo' hi' : Int}
    (h : ctx.Opens site lo hi) (h' : ctx.Opens site lo' hi') : lo = lo' ∧ hi = hi' := by
  obtain ⟨start, stop, hrange, hbounds⟩ := h
  obtain ⟨start', stop', hrange', hbounds'⟩ := h'
  rw [hrange] at hrange'
  cases hrange'
  rw [hbounds] at hbounds'
  cases hbounds'
  exact ⟨rfl, rfl⟩

/-- The bounds of a loop settle if the empty slots in them do. -/
theorem evalBounds_settles {ctx ctx' : Context α} {site site' : Site} (h : ctx.Below ctx')
    (hsite : site.Alike site') (start stop : Expr)
    (hslots : ∀ slot ∈ start.emptySlots ++ stop.emptySlots,
      Settles Failure.IsStuck (ctx.selection site slot) (ctx'.selection site' slot)) :
    Settles Failure.IsStuck (ctx.evalBounds site start stop)
      (ctx'.evalBounds site' start stop) := by
  unfold evalBounds
  refine Settles.bind (evalIndex_settles h hsite start fun slot hslot =>
    hslots slot (List.mem_append_left _ hslot)) fun lo _ => ?_
  exact Settles.bind (evalIndex_settles h hsite stop fun slot hslot =>
    hslots slot (List.mem_append_right _ hslot)) fun hi _ => Settles.refl _

end Context

namespace Walker

variable {α σ : Type} [Scalar α] {w : Walker α σ} {state : σ} {site : Site}

/-- A walk finds bounds exactly if both of them have a value. -/
theorem bounds_eq_ok_some_iff {start stop : Expr} {b : Int × Int} :
    w.bounds state site start stop = .ok (some b) ↔
      (w.context state).evalBounds site start stop = .ok b := by
  have hboth : (do
      let lo ← (w.context state).evalIndex site start
      let hi ← (w.context state).evalIndex site stop
      return (lo, hi)) = (w.context state).evalBounds site start stop := rfl
  unfold bounds
  dsimp only
  rw [hboth]
  split
  · simp
  · split <;> simp_all

/-- A walk passes over a loop exactly if it is not strict and a bound is not known. -/
theorem bounds_eq_ok_none_iff {start stop : Expr} :
    w.bounds state site start stop = .ok none ↔ w.strict = false ∧
      ∃ e : Failure, e.IsStuck ∧ (w.context state).evalBounds site start stop = .error e := by
  have hboth : (do
      let lo ← (w.context state).evalIndex site start
      let hi ← (w.context state).evalIndex site stop
      return (lo, hi)) = (w.context state).evalBounds site start stop := rfl
  unfold bounds
  dsimp only
  rw [hboth]
  unfold Failure.IsStuck
  split
  · next hstrict => simp [hstrict]
  · next hstrict =>
    split
    · next id hid => simp [hid, hstrict]
    · next e hne he =>
      simp only [reduceCtorEq, he, Except.error.injEq, false_iff, not_and]
      rintro - ⟨_, ⟨id, rfl⟩, rfl⟩
      exact hne id rfl
    · next b hb => simp [hb]

/-- What a step can be: a visit, the opening of a loop, or passing over a loop. -/
theorem step_eq_ok_iff {mid : σ} {inner : List Site} :
    w.step state site = .ok (mid, inner) ↔
      (site.range? = none ∧ w.visit state site = .ok mid ∧ inner = []) ∨
      (∃ lo hi, (w.context state).Opens site lo hi ∧ mid = state ∧ inner = site.inner lo hi) ∨
      (∃ start stop, site.range? = some (start, stop) ∧ w.strict = false ∧
        (∃ e : Failure, e.IsStuck ∧ (w.context state).evalBounds site start stop = .error e) ∧
        mid = state ∧ inner = []) := by
  unfold step Context.Opens
  cases hrange : site.range? with
  | none =>
    simp only [bind_eq_ok, pure_eq_ok, Prod.mk.injEq]
    constructor
    · rintro ⟨_, hvisit, rfl, rfl⟩
      exact Or.inl ⟨trivial, hvisit, rfl⟩
    · rintro (⟨-, hvisit, rfl⟩ | ⟨_, _, ⟨_, _, h, -⟩, -⟩ | ⟨_, _, h, -⟩)
      · exact ⟨mid, hvisit, rfl, rfl⟩
      · cases h
      · cases h
  | some range =>
    obtain ⟨start, stop⟩ := range
    simp only [bind_eq_ok]
    constructor
    · rintro ⟨bounds, hbounds, h⟩
      cases bounds with
      | none =>
        cases h
        obtain ⟨hstrict, hstuck⟩ := bounds_eq_ok_none_iff.mp hbounds
        exact Or.inr (Or.inr ⟨start, stop, rfl, hstrict, hstuck, rfl, rfl⟩)
      | some b =>
        obtain ⟨lo, hi⟩ := b
        cases h
        have hopens := bounds_eq_ok_some_iff.mp hbounds
        exact Or.inr (Or.inl ⟨lo, hi, ⟨start, stop, rfl, hopens⟩, rfl, rfl⟩)
    · rintro (⟨h, -⟩ | ⟨lo, hi, ⟨_, _, h, hopens⟩, rfl, rfl⟩ | ⟨_, _, h, hstrict, hstuck, rfl, rfl⟩)
      · cases h
      · cases h
        exact ⟨some (lo, hi), bounds_eq_ok_some_iff.mpr hopens, rfl⟩
      · cases h
        exact ⟨none, bounds_eq_ok_none_iff.mpr ⟨hstrict, hstuck⟩, rfl⟩

end Walker

/-! ## Instances that one context leads to -/

namespace Stmt

variable {α : Type} [Scalar α]

mutual

/-- The instances that a context leads to in a statement, loops with known bounds expanded. -/
def reached (ctx : Context α) (env : LoopValues) : Stmt → List Site
  | .loop comment var (.range start stop) body =>
    let site : Site := ⟨.loop comment var (.range start stop) body, env⟩
    match ctx.evalBounds site start stop with
    | .ok (lo, hi) =>
      site :: (integersBetween lo hi).flatMap fun i =>
        reachedOfAll ctx (env.bind var.shown i) body
    | .error _ => [site]
  | .loop comment var sequence body => [⟨.loop comment var sequence body, env⟩]
  | .sample comment lhs law => [⟨.sample comment lhs law, env⟩]
  | .assign comment lhs rhs => [⟨.assign comment lhs rhs, env⟩]
  | .raw object => [⟨.raw object, env⟩]

/-- The instances that a context leads to in the statements of a list. -/
def reachedOfAll (ctx : Context α) (env : LoopValues) : List Stmt → List Site
  | [] => []
  | s :: rest => reached ctx env s ++ reachedOfAll ctx env rest

end

end Stmt

namespace Context

variable {α : Type} [Scalar α] {ctx : Context α}

/-- The instances that a context leads to from some instances on. -/
def reach (ctx : Context α) (sites : List Site) : List Site :=
  sites.flatMap fun site => Stmt.reached ctx site.env site.statement

/-- The instances that a list of statements reaches are those of its members. -/
theorem reachedOfAll_eq (env : LoopValues) (ss : List Stmt) :
    Stmt.reachedOfAll ctx env ss = ctx.reach (ss.map fun s => ⟨s, env⟩) := by
  induction ss with
  | nil => rfl
  | cons s ss ih => rw [Stmt.reachedOfAll, ih, reach, reach, List.map_cons, List.flatMap_cons]

/-- The instances that two lists reach stand behind each other. -/
theorem reach_append (sites more : List Site) :
    ctx.reach (sites ++ more) = ctx.reach sites ++ ctx.reach more :=
  List.flatMap_append

/-- A loop that opens is followed by the instances that its body leads to. -/
theorem reach_cons_of_opens {site : Site} {rest : List Site} {lo hi : Int}
    (h : ctx.Opens site lo hi) :
    ctx.reach (site :: rest) = site :: ctx.reach (site.inner lo hi ++ rest) := by
  obtain ⟨start, stop, hrange, hbounds⟩ := h
  obtain ⟨s, env⟩ := site
  have hsite : Stmt.reached ctx env s = ⟨s, env⟩ :: ctx.reach (Site.inner ⟨s, env⟩ lo hi) := by
    unfold Site.range? at hrange
    split at hrange
    · next comment var start' stop' body hs =>
      cases hrange
      dsimp only at hs
      subst hs
      rw [Stmt.reached]
      simp only [hbounds, reachedOfAll_eq, Site.inner, reach, List.flatMap_assoc]
    · cases hrange
  rw [reach_append, ← List.cons_append, ← hsite]
  rfl

/-- Any other instance stands alone. -/
theorem reach_cons_of_not_opens {site : Site} {rest : List Site}
    (h : ∀ lo hi, ¬ ctx.Opens site lo hi) : ctx.reach (site :: rest) = site :: ctx.reach rest := by
  obtain ⟨s, env⟩ := site
  have hsite : Stmt.reached ctx env s = [⟨s, env⟩] := by
    match s with
    | .loop comment var (.range start stop) body =>
      rw [Stmt.reached]
      split
      · next lo hi hbounds => exact absurd ⟨start, stop, rfl, hbounds⟩ (h lo hi)
      · rfl
    | .loop _ _ (.literal _) _ | .loop _ _ (.var _) _ | .loop _ _ .colon _
    | .loop _ _ (.index _ _) _ | .loop _ _ (.negate _) _ | .loop _ _ (.add _ _) _
    | .loop _ _ (.sub _ _) _ | .loop _ _ (.mul _ _) _ | .loop _ _ (.div _ _) _
    | .loop _ _ (.pow _ _) _ | .loop _ _ (.call _ _) _ | .loop _ _ (.ref _) _
    | .loop _ _ (.refArray _ _) _ | .loop _ _ (.raw _) _ | .loop _ _ (.rawList _) _
    | .sample _ _ _ | .assign _ _ _ | .raw _ => rw [Stmt.reached] <;> simp
  change Stmt.reached ctx env s ++ ctx.reach rest = _
  rw [hsite]
  rfl

/-- A property of lists of instances holds if it passes from what an instance is replaced by to the
instance. -/
theorem reach_induction (ctx : Context α) {motive : List Site → Prop} (nil : motive [])
    (opens : ∀ site rest lo hi, ctx.Opens site lo hi → motive (site.inner lo hi ++ rest) →
      motive (site :: rest))
    (closed : ∀ site rest, (∀ lo hi, ¬ ctx.Opens site lo hi) → motive rest →
      motive (site :: rest)) (sites : List Site) : motive sites := by
  -- the number of instances that the context leads to descends
  induction hn : (ctx.reach sites).length using Nat.strongRecOn generalizing sites with
  | _ n ih =>
    subst hn
    cases sites with
    | nil => exact nil
    | cons site rest =>
      by_cases hsite : ∃ lo hi, ctx.Opens site lo hi
      · obtain ⟨lo, hi, hsite⟩ := hsite
        refine opens site rest lo hi hsite (ih _ ?_ _ rfl)
        rw [reach_cons_of_opens hsite]
        exact Nat.lt_succ_self _
      · have hclosed : ∀ lo hi, ¬ ctx.Opens site lo hi := fun lo hi h => hsite ⟨lo, hi, h⟩
        refine closed site rest hclosed (ih _ ?_ _ rfl)
        rw [reach_cons_of_not_opens hclosed]
        exact Nat.lt_succ_self _

/-- What holds of the instances from which a context starts, and passes on to the bodies of loops
that open, holds of all instances to which the context leads. -/
theorem forall_reach {P : Site → Prop} {sites : List Site} (hsites : ∀ site ∈ sites, P site)
    (hinner : ∀ site lo hi, ctx.Opens site lo hi → P site → ∀ t ∈ site.inner lo hi, P t) :
    ∀ site ∈ ctx.reach sites, P site := by
  induction sites using ctx.reach_induction with
  | nil => simp [reach]
  | opens site rest lo hi hopens ih =>
    obtain ⟨hsite, hrest⟩ := List.forall_mem_cons.mp hsites
    rw [reach_cons_of_opens hopens]
    exact List.forall_mem_cons.mpr ⟨hsite, ih fun t ht =>
      (List.mem_append.mp ht).elim (hinner site lo hi hopens hsite t) (hrest t)⟩
  | closed site rest hclosed ih =>
    obtain ⟨hsite, hrest⟩ := List.forall_mem_cons.mp hsites
    rw [reach_cons_of_not_opens hclosed]
    exact List.forall_mem_cons.mpr ⟨hsite, ih hrest⟩

/-- A context leads at least to the instance itself and to what it leads to from the others on. -/
theorem cons_reach_sublist (site : Site) (rest : List Site) :
    (site :: ctx.reach rest).Sublist (ctx.reach (site :: rest)) := by
  by_cases hsite : ∃ lo hi, ctx.Opens site lo hi
  · obtain ⟨lo, hi, hsite⟩ := hsite
    rw [reach_cons_of_opens hsite, reach_append]
    exact (List.sublist_append_right _ _).cons_cons site
  · rw [reach_cons_of_not_opens fun lo hi h => hsite ⟨lo, hi, h⟩]

/-- A context leads to the instances from which it starts. -/
theorem subset_reach (sites : List Site) : ∀ site ∈ sites, site ∈ ctx.reach sites := by
  induction sites with
  | nil => simp
  | cons site rest ih =>
    have hsub : site :: ctx.reach rest ⊆ ctx.reach (site :: rest) :=
      (cons_reach_sublist site rest).subset
    intro t ht
    rcases List.mem_cons.mp ht with rfl | ht
    · exact hsub List.mem_cons_self
    · exact hsub (List.mem_cons_of_mem site (ih t ht))

/-- With a loop that opens, a context leads to the instances of its body. -/
theorem mem_reach_of_inner {sites : List Site} {site t : Site} {lo hi : Int}
    (hsite : site ∈ ctx.reach sites) (hopens : ctx.Opens site lo hi) (ht : t ∈ site.inner lo hi) :
    t ∈ ctx.reach sites := by
  induction sites using ctx.reach_induction with
  | nil => simp [reach] at hsite
  | opens site' rest lo' hi' hopens' ih =>
    rw [reach_cons_of_opens hopens'] at hsite ⊢
    rcases List.mem_cons.mp hsite with rfl | hsite
    · obtain ⟨rfl, rfl⟩ := hopens.unique hopens'
      exact List.mem_cons_of_mem _ (subset_reach _ t (List.mem_append_left rest ht))
    · exact List.mem_cons_of_mem _ (ih hsite)
  | closed site' rest hclosed ih =>
    rw [reach_cons_of_not_opens hclosed] at hsite ⊢
    rcases List.mem_cons.mp hsite with rfl | hsite
    · exact absurd hopens (hclosed lo hi)
    · exact List.mem_cons_of_mem _ (ih hsite)

/-- If what opens in a context opens in another one, that one leads to at least as much. -/
theorem reach_sublist_reach {ctx' : Context α} {sites : List Site}
    (h : ∀ site ∈ ctx.reach sites, ∀ lo hi, ctx.Opens site lo hi → ctx'.Opens site lo hi) :
    (ctx.reach sites).Sublist (ctx'.reach sites) := by
  induction sites using ctx.reach_induction with
  | nil => exact List.Sublist.refl _
  | opens site rest lo hi hsite ih =>
    rw [reach_cons_of_opens hsite] at h ⊢
    rw [reach_cons_of_opens (h site List.mem_cons_self lo hi hsite)]
    exact (ih fun t ht => h t (List.mem_cons_of_mem site ht)).cons_cons site
  | closed site rest hsite ih =>
    rw [reach_cons_of_not_opens hsite] at h ⊢
    refine List.Sublist.trans ?_ (cons_reach_sublist site rest)
    exact (ih fun t ht => h t (List.mem_cons_of_mem site ht)).cons_cons site

end Context

namespace Walker

variable {α σ : Type} [Scalar α] {w : Walker α σ} {state state' : σ} {sites : List Site}
  {events : List (σ × Site)} {ctx : Context α}

/-- If what opens in a context opens in a walk, the walk comes to all instances that the context
leads to. -/
theorem Trace.reach_sublist (h : w.Trace state sites events state')
    (hopens : ∀ e ∈ events, ∀ lo hi, ctx.Opens e.2 lo hi → (w.context e.1).Opens e.2 lo hi) :
    (ctx.reach sites).Sublist (events.map (·.2)) := by
  induction h with
  | done => exact List.Sublist.refl _
  | @step state mid state' site inner rest events hstep _ ih =>
    have hrest := ih fun e he => hopens e (List.mem_cons_of_mem _ he)
    rw [List.map_cons]
    by_cases hsite : ∃ lo hi, ctx.Opens site lo hi
    · obtain ⟨lo, hi, hsite⟩ := hsite
      obtain ⟨start, stop, hrange, hbounds⟩ := hopens _ List.mem_cons_self lo hi hsite
      rw [Context.reach_cons_of_opens hsite]
      rcases step_eq_ok_iff.mp hstep with ⟨hnone, -⟩ | ⟨lo', hi', hopens', -, rfl⟩ |
          ⟨start', stop', hrange', -, ⟨e, -, he⟩, -⟩
      · rw [hrange] at hnone
        cases hnone
      · obtain ⟨rfl, rfl⟩ := hopens'.unique ⟨start, stop, hrange, hbounds⟩
        exact hrest.cons_cons site
      · rw [hrange] at hrange'
        cases hrange'
        rw [hbounds] at he
        cases he
    · rw [Context.reach_cons_of_not_opens fun lo hi h => hsite ⟨lo, hi, h⟩]
      refine List.Sublist.cons_cons site (List.Sublist.trans ?_ hrest)
      rw [Context.reach_append]
      exact List.sublist_append_right _ _

/-- If what opens in a walk opens in a context, the context leads to all instances that the walk
comes to. -/
theorem Trace.sublist_reach (h : w.Trace state sites events state')
    (hopens : ∀ e ∈ events, ∀ lo hi, (w.context e.1).Opens e.2 lo hi → ctx.Opens e.2 lo hi) :
    (events.map (·.2)).Sublist (ctx.reach sites) := by
  induction h with
  | done => exact List.Sublist.refl _
  | @step state mid state' site inner rest events hstep _ ih =>
    have hrest := ih fun e he => hopens e (List.mem_cons_of_mem _ he)
    rw [List.map_cons]
    rcases step_eq_ok_iff.mp hstep with ⟨-, -, rfl⟩ | ⟨lo, hi, hsite, -, rfl⟩ |
        ⟨_, _, -, -, -, -, rfl⟩
    · exact (hrest.cons_cons site).trans (Context.cons_reach_sublist site rest)
    · rw [Context.reach_cons_of_opens (hopens _ List.mem_cons_self lo hi hsite)]
      exact hrest.cons_cons site
    · exact (hrest.cons_cons site).trans (Context.cons_reach_sublist site rest)

/-- If loops stay open from every step to the next, a walk comes to instances only to which the
context at that time leads. -/
theorem Trace.mem_reach {all : List Site} (h : w.Trace state sites events state')
    (hkeep : ∀ e ∈ events, ∀ mid inner, w.step e.1 e.2 = .ok (mid, inner) →
      ∀ site lo hi, (w.context e.1).Opens site lo hi → (w.context mid).Opens site lo hi)
    (hsites : ∀ site ∈ sites, site ∈ (w.context state).reach all) :
    ∀ e ∈ events, e.2 ∈ (w.context e.1).reach all := by
  induction h with
  | done => simp
  | @step state mid state' site inner rest events hstep _ ih =>
    have hsite := hsites site List.mem_cons_self
    have hopens := hkeep _ List.mem_cons_self mid inner hstep
    have hgrow : ((w.context state).reach all).Sublist ((w.context mid).reach all) :=
      Context.reach_sublist_reach fun s _ => hopens s
    refine List.forall_mem_cons.mpr ⟨hsite, ih (fun e he => hkeep e (List.mem_cons_of_mem _ he)) ?_⟩
    intro t ht
    rcases List.mem_append.mp ht with ht | ht
    · rcases step_eq_ok_iff.mp hstep with ⟨-, -, rfl⟩ | ⟨lo, hi, hsite', rfl, rfl⟩ |
          ⟨_, _, -, -, -, -, rfl⟩
      · simp at ht
      · exact Context.mem_reach_of_inner hsite hsite' ht
      · simp at ht
    · exact hgrow.subset (hsites t (List.mem_cons_of_mem site ht))

/-- A walk succeeds if it can take a step at every instance to which a context leads, in every state
with a property that all steps keep. -/
theorem exists_runs (P : σ → Prop) (hstart : P state)
    (hstep : ∀ site ∈ ctx.reach sites, ∀ state, P state → ∃ mid inner,
      w.step state site = .ok (mid, inner) ∧ P mid ∧
        (inner = [] ∨ ∃ lo hi, ctx.Opens site lo hi ∧ inner = site.inner lo hi)) :
    ∃ state', w.Runs state sites state' ∧ P state' := by
  induction hn : (ctx.reach sites).length using Nat.strongRecOn generalizing sites state with
  | _ n ih =>
    subst hn
    cases sites with
    | nil => exact ⟨state, runs_nil_iff.mpr rfl, hstart⟩
    | cons site rest =>
      have hhead : site ∈ ctx.reach (site :: rest) :=
        (Context.cons_reach_sublist site rest).subset List.mem_cons_self
      obtain ⟨mid, inner, hmid, hP, hinner⟩ := hstep site hhead state hstart
      have hnext : (site :: ctx.reach (inner ++ rest)).Sublist (ctx.reach (site :: rest)) := by
        rcases hinner with rfl | ⟨lo, hi, hsite, rfl⟩
        · exact Context.cons_reach_sublist site rest
        · rw [Context.reach_cons_of_opens hsite]
      obtain ⟨state', hruns, hend⟩ := ih _ hnext.length_le hP
        (fun t ht => hstep t (hnext.subset (List.mem_cons_of_mem site ht))) rfl
      exact ⟨state', runs_cons_iff.mpr ⟨mid, inner, hmid, hruns⟩, hend⟩

end Walker

end BayesGraph