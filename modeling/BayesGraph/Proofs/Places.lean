import Mathlib.Data.List.Induction
import BayesGraph.Proofs.Rearrangement
import BayesGraph.Proofs.Simulation
import BayesGraph.Proofs.Substitution

/-!
# One statement in the place of another

A place is where one statement of a model stands: among the others, or in the body of loops
(`Stmt.Place`). `Walker.Visits` says in which states, and with which values of the loop variables, a
walk comes to the statement there.

Two walks through statements that differ at one place come to that place equally often, because an
expression resolves alike in all instances with the same values of the loop variables. So the walks
end in states that correspond, if all visits of the place and all walks through the same statements
keep states that correspond (`Walker.runs_fill`).
-/

set_option autoImplicit false

namespace BayesGraph

open Outcome

/-! ## Instances with the same values of the loop variables -/

namespace Context

variable {α : Type} [Scalar α] {site site' : Site}

mutual

/-- An expression resolves alike in all instances with the same values of the loop variables. -/
theorem resolve_kin (ctx : Context α) (henv : site.env = site'.env) (e : Expr) :
    Kin (ctx.resolve site e) (ctx.resolve site' e) := by
  match e with
  | .literal _ => exact Kin.refl _
  | .var name =>
    rw [resolve, resolve, henv]
    exact Kin.refl _
  | .index name indices =>
    rw [resolve, resolve, henv]
    split
    · exact Kin.refuse _ _ _ _ _ _
    · exact Kin.bind (positionsOf_kin ctx henv name.shown indices.length 0 indices)
        fun ps _ => Kin.refl _
  | .negate val =>
    rw [resolve, resolve]
    exact Kin.bind (resolve_kin ctx henv val) fun v _ => Kin.refl _
  | .add a b | .sub a b | .mul a b | .div a b | .pow a b =>
    rw [resolve, resolve]
    refine Kin.bind (resolve_kin ctx henv a) fun x _ => ?_
    exact Kin.bind (resolve_kin ctx henv b) fun y _ => Kin.refl _
  | .call func arguments =>
    rw [resolve, resolve]
    exact Kin.bind (resolveAll_kin ctx henv arguments) fun es _ => Kin.refl _
  | .colon | .range _ _ | .ref _ | .refArray _ _ | .raw _ | .rawList _ =>
    rw [resolve, resolve]
    exact Kin.refuse _ _ _ _ _ _

/-- The same for the expressions of a list. -/
theorem resolveAll_kin (ctx : Context α) (henv : site.env = site'.env) (es : List Expr) :
    Kin (ctx.resolveAll site es) (ctx.resolveAll site' es) := by
  match es with
  | [] => exact Kin.refl _
  | e :: rest =>
    rw [resolveAll, resolveAll]
    refine Kin.bind (resolve_kin ctx henv e) fun x _ => ?_
    exact Kin.bind (resolveAll_kin ctx henv rest) fun y _ => Kin.refl _

/-- The same for the positions that indices select. -/
theorem positionsOf_kin (ctx : Context α) (henv : site.env = site'.env) (name : String)
    (rank d : Nat) (es : List Expr) :
    Kin (ctx.positionsOf site name rank d es) (ctx.positionsOf site' name rank d es) := by
  have hagrees := Agrees.refl ctx
  match es with
  | [] => exact Kin.refl _
  | .colon :: rest =>
    rw [positionsOf, positionsOf]
    refine Kin.bind (wholeDimension_kin hagrees _ _ _ _ _) fun ps _ => ?_
    exact Kin.bind (positionsOf_kin ctx henv name rank (d + 1) rest) fun qs _ => Kin.refl _
  | .range a b :: rest =>
    rw [positionsOf, positionsOf]
    refine Kin.bind (resolve_kin ctx henv a) fun x _ => ?_
    refine Kin.bind (evalResolvedIndex_kin hagrees _ _ _ _ x) fun lo _ => ?_
    refine Kin.bind (resolve_kin ctx henv b) fun y _ => ?_
    refine Kin.bind (evalResolvedIndex_kin hagrees _ _ _ _ y) fun hi _ => ?_
    refine Kin.bind (Kin.refl _) fun ps _ => ?_
    exact Kin.bind (positionsOf_kin ctx henv name rank (d + 1) rest) fun qs _ => Kin.refl _
  | .literal _ :: rest | .var _ :: rest | .index _ _ :: rest | .negate _ :: rest
  | .add _ _ :: rest | .sub _ _ :: rest | .mul _ _ :: rest | .div _ _ :: rest
  | .pow _ _ :: rest | .call _ _ :: rest | .ref _ :: rest | .refArray _ _ :: rest
  | .raw _ :: rest | .rawList _ :: rest =>
    rw [positionsOf_cons rfl, positionsOf_cons rfl]
    refine Kin.bind (resolve_kin ctx henv _) fun x _ => ?_
    refine Kin.bind (evalResolvedIndex_kin hagrees _ _ _ _ x) fun n _ => ?_
    exact Kin.bind (positionsOf_kin ctx henv name rank (d + 1) rest) fun qs _ => Kin.refl _

end

/-- The integer that an index is depends on the values of the loop variables only. -/
theorem evalIndex_kin (ctx : Context α) (henv : site.env = site'.env) (e : Expr) :
    Kin (ctx.evalIndex site e) (ctx.evalIndex site' e) := by
  unfold evalIndex
  refine Kin.bind (resolve_kin ctx henv e) fun resolved _ => ?_
  exact evalResolvedIndex_kin (Agrees.refl ctx) _ _ _ _ resolved

/-- Bounds of a loop are evaluated alike at instances with the same loop values. -/
theorem evalBounds_kin (ctx : Context α) (henv : site.env = site'.env) (start stop : Expr) :
    Kin (ctx.evalBounds site start stop) (ctx.evalBounds site' start stop) := by
  unfold evalBounds
  refine Kin.bind (evalIndex_kin ctx henv start) fun lo _ => ?_
  exact Kin.bind (evalIndex_kin ctx henv stop) fun hi _ => Kin.refl _

/-- The identity on a left-hand side depends on the values of the loop variables only. -/
theorem resolveTarget_kin (ctx : Context α) (henv : site.env = site'.env) (lhs : Expr) :
    Kin (ctx.resolveTarget site lhs) (ctx.resolveTarget site' lhs) := by
  cases lhs with
  | var name =>
    rw [resolveTarget, resolveTarget, henv]
    split
    · exact Kin.refuse _ _ _ _ _ _
    · exact Kin.refl _
  | index name indices =>
    rw [resolveTarget, resolveTarget]
    refine Kin.bind (Kin.mapM ?_) fun is _ => Kin.refl _
    exact List.forall₂_same.mpr fun e _ => evalIndex_kin ctx henv e
  | _ =>
    unfold resolveTarget
    exact Kin.refuse _ _ _ _ _ _

/-- Statements with the same left-hand side define the same identities. -/
theorem resolveTarget_congr {ctx : Context α} {s s' : Stmt} {env : LoopValues} {lhs : Expr}
    {id : Identity} :
    ctx.resolveTarget ⟨s, env⟩ lhs = .ok id ↔ ctx.resolveTarget ⟨s', env⟩ lhs = .ok id := by
  have henv : (⟨s, env⟩ : Site).env = (⟨s', env⟩ : Site).env := rfl
  exact (resolveTarget_kin ctx henv lhs).eq_ok_iff

/-- Loops over the same range open alike. -/
theorem Opens.of_env {ctx : Context α} {lo hi : Int} (h : ctx.Opens site lo hi)
    (henv : site.env = site'.env) (hrange : site'.range? = site.range?) :
    ctx.Opens site' lo hi := by
  obtain ⟨start, stop, hsome, hbounds⟩ := h
  exact ⟨start, stop, hrange.trans hsome, (evalBounds_kin ctx henv start stop).eq_ok_iff.mp hbounds⟩

end Context

/-! ## Places -/

/-- The instances of the statements of a list, all with the same values of the loop variables. -/
def LoopValues.sites (env : LoopValues) (ss : List Stmt) : List Site := ss.map fun s => ⟨s, env⟩

/-- A place for a statement: among other statements, or in the body of a loop over a range. -/
inductive Stmt.Place where
  | among (before after : List Stmt)
  | inside (before : List Stmt) (comment : List String) (var : Datum) (start stop : Expr)
    (body : Place) (after : List Stmt)

/-- The statements around a place, with a statement there. -/
def Stmt.Place.fill (s : Stmt) : Place → List Stmt
  | .among before after => before ++ s :: after
  | .inside before comment var start stop body after =>
    before ++ .loop comment var (.range start stop) (body.fill s) :: after

/-- The names that are defined around a place depend on the left-hand side there only. -/
theorem Stmt.Place.definedNames_fill {s s' : Stmt} (h : s.targets = s'.targets) (place : Place) :
    Stmt.definedNames (place.fill s) = Stmt.definedNames (place.fill s') := by
  have htargets : Stmt.targetsOfAll (place.fill s) = Stmt.targetsOfAll (place.fill s') := by
    induction place with
    | among before after =>
      simp only [fill, Stmt.targetsOfAll_eq, List.flatMap_append, List.flatMap_cons, h]
    | inside before comment var start stop body after ih =>
      rw [Stmt.targetsOfAll_eq, Stmt.targetsOfAll_eq, fill, fill]
      simp only [List.flatMap_append, List.flatMap_cons, Stmt.targets, ih]
  unfold Stmt.definedNames
  rw [htargets]

namespace Walker

variable {α σ : Type} [Scalar α] {w : Walker α σ}

/-- In a walk from a state on, with some values of the loop variables, the statement at a place is
visited in another state with the values of all loop variables around it. -/
inductive Visits (w : Walker α σ) (s : Stmt) :
    Stmt.Place → σ → LoopValues → σ → LoopValues → Prop
  | among {before after : List Stmt} {state mid : σ} {env : LoopValues}
      (hbefore : w.Runs state (env.sites before) mid) :
      Visits w s (.among before after) state env mid env
  | inside {before after : List Stmt} {comment : List String} {var : Datum} {start stop : Expr}
      {body : Stmt.Place} {state outer turn mid : σ} {env env' : LoopValues} {lo hi i : Int}
      {done rest : List Int} (hbefore : w.Runs state (env.sites before) outer)
      (hopens : (w.context outer).Opens
        ⟨.loop comment var (.range start stop) (body.fill s), env⟩ lo hi)
      (hturns : integersBetween lo hi = done ++ i :: rest)
      (hdone : w.Runs outer (done.flatMap fun k => (env.bind var.shown k).sites (body.fill s)) turn)
      (hbody : Visits w s body turn (env.bind var.shown i) mid env') :
      Visits w s (.inside before comment var start stop body after) state env mid env'

variable {p p' q q' : σ} {s s' : Stmt} {place : Stmt.Place} {env : LoopValues}

/-- A walk through statements passes through those before one of them, that one, and those after. -/
theorem runs_around_iff {before after : List Stmt} :
    w.Runs p (env.sites (before ++ s :: after)) q ↔ ∃ m n, w.Runs p (env.sites before) m ∧
      w.Runs m [⟨s, env⟩] n ∧ w.Runs n (env.sites after) q := by
  have hsites : env.sites (before ++ s :: after) =
      env.sites before ++ ([⟨s, env⟩] ++ env.sites after) := by
    unfold LoopValues.sites
    rw [List.map_append, List.map_cons, List.singleton_append]
  simp only [hsites, runs_append_iff]
  constructor
  · rintro ⟨m, hbefore, n, hs, hafter⟩
    exact ⟨m, n, hbefore, hs, hafter⟩
  · rintro ⟨m, n, hbefore, hs, hafter⟩
    exact ⟨m, hbefore, n, hs, hafter⟩

/-- A walk through one instance without a body is the visit of it. -/
theorem runs_visit_iff {site : Site} (h : site.range? = none) :
    w.Runs p [site] q ↔ w.visit p site = .ok q := by
  rw [runs_cons_iff]
  unfold step
  simp only [h, bind_eq_ok, pure_eq_ok, Prod.mk.injEq, List.append_nil]
  constructor
  · rintro ⟨mid, inner, ⟨_, hvisit, rfl, rfl⟩, hinner⟩
    rw [← runs_nil_iff.mp hinner]
    exact hvisit
  · intro hvisit
    exact ⟨q, [], ⟨q, hvisit, rfl, rfl⟩, runs_nil_iff.mpr rfl⟩

/-- A walk takes one turn through the body of a loop for each integer between the bounds, or it
passes over the loop. -/
theorem runs_loop_iff {comment : List String} {var : Datum} {start stop : Expr} {body : List Stmt} :
    w.Runs p [⟨.loop comment var (.range start stop) body, env⟩] q ↔
      (∃ lo hi, (w.context p).Opens ⟨.loop comment var (.range start stop) body, env⟩ lo hi ∧
        w.Runs p ((integersBetween lo hi).flatMap fun k => (env.bind var.shown k).sites body) q) ∨
      w.Passes p ⟨.loop comment var (.range start stop) body, env⟩ ∧ p = q := by
  rw [runs_cons_iff]
  simp only [List.append_nil]
  constructor
  · rintro ⟨mid, inner, hstep, hinner⟩
    rcases step_eq_ok_iff.mp hstep with ⟨hnone, -⟩ | ⟨lo, hi, hopens, rfl, rfl⟩ |
        ⟨start', stop', hrange, hstrict, hstuck, rfl, rfl⟩
    · cases hnone
    · exact Or.inl ⟨lo, hi, hopens, hinner⟩
    · exact Or.inr ⟨⟨start', stop', hrange, hstrict, hstuck⟩, runs_nil_iff.mp hinner⟩
  · rintro (⟨lo, hi, hopens, hturns⟩ | ⟨⟨start', stop', hrange, hstrict, hstuck⟩, rfl⟩)
    · exact ⟨p, _, step_eq_ok_iff.mpr (Or.inr (Or.inl ⟨lo, hi, hopens, rfl, rfl⟩)), hturns⟩
    · exact ⟨p, [], step_eq_ok_iff.mpr (Or.inr (Or.inr
        ⟨start', stop', hrange, hstrict, hstuck, rfl, rfl⟩)), runs_nil_iff.mpr rfl⟩

/-- A loop that is passed over does not open. -/
theorem Passes.not_opens {site : Site} (h : w.Passes p site) (lo hi : Int) :
    ¬ (w.context p).Opens site lo hi := by
  rintro ⟨start', stop', hsome', hbounds⟩
  obtain ⟨start, stop, hsome, -, e, -, herror⟩ := h
  rw [hsome] at hsome'
  cases hsome'
  rw [herror] at hbounds
  cases hbounds

/-- Turns keep states that correspond if each one does. -/
theorem runs_turns {S : σ → σ → Prop} {f f' : Int → List Site} (is : List Int)
    (hturn : ∀ done i rest m m' n n', is = done ++ i :: rest → w.Runs p (done.flatMap f) m →
      S m m' → w.Runs m (f i) n → w.Runs m' (f' i) n' → w.Runs n (rest.flatMap f) q → S n n')
    (hp : S p p') (hq : w.Runs p (is.flatMap f) q) (hq' : w.Runs p' (is.flatMap f') q') :
    S q q' := by
  induction is using List.reverseRecOn generalizing q q' with
  | nil =>
    obtain rfl := runs_nil_iff.mp hq
    obtain rfl := runs_nil_iff.mp hq'
    exact hp
  | append_singleton is i ih =>
    rw [List.flatMap_append, runs_append_iff] at hq hq'
    obtain ⟨m, hm, hi⟩ := hq
    obtain ⟨m', hm', hi'⟩ := hq'
    rw [List.flatMap_singleton] at hi hi'
    have hS : S m m' := by
      refine ih (fun done j rest k k' n n' hsplit hdone hk hn hn' hrest => ?_) hm hm'
      refine hturn done j (rest ++ [i]) k k' n n' ?_ hdone hk hn hn' ?_
      · rw [hsplit, List.append_assoc, List.cons_append]
      · rw [List.flatMap_append, List.flatMap_singleton]
        exact runs_append_iff.mpr ⟨m, hrest, hi⟩
    exact hturn is i [] m m' q q' rfl hm hS hi hi' (runs_nil_iff.mpr rfl)

/-- Walks through statements that differ at one place end in states that correspond, if walks
through the same statements do and visits of the place do. Behind each visit the first walk goes on
to its end. -/
theorem runs_fill {S : σ → σ → Prop} (hcontext : ∀ m m', S m m' → w.context m = w.context m')
    (hcommon : ∀ sites m m' n n', S m m' → w.Runs m sites n → w.Runs m' sites n' → S n n')
    (place : Stmt.Place) {env : LoopValues} (hp : S p p')
    (hvisit : ∀ m m' n n' env', w.Visits s place p env m env' → S m m' →
      w.Runs m [⟨s, env'⟩] n → w.Runs m' [⟨s', env'⟩] n' → (∃ rest, w.Runs n rest q) → S n n')
    (hq : w.Runs p (env.sites (place.fill s)) q)
    (hq' : w.Runs p' (env.sites (place.fill s')) q') : S q q' := by
  induction place generalizing env p p' q q' with
  | among before after =>
    obtain ⟨m, n, hm, hn, hafter⟩ := runs_around_iff.mp hq
    obtain ⟨m', n', hm', hn', hafter'⟩ := runs_around_iff.mp hq'
    have hS := hcommon _ _ _ _ _ hp hm hm'
    exact hcommon _ _ _ _ _ (hvisit m m' n n' env (.among hm) hS hn hn' ⟨_, hafter⟩) hafter hafter'
  | inside before comment var start stop body after ih =>
    obtain ⟨m, n, hm, hn, hafter⟩ := runs_around_iff.mp hq
    obtain ⟨m', n', hm', hn', hafter'⟩ := runs_around_iff.mp hq'
    have hS := hcommon _ _ _ _ _ hp hm hm'
    refine hcommon _ _ _ _ _ ?_ hafter hafter'
    have hsame : ∀ lo hi,
        (w.context m).Opens ⟨.loop comment var (.range start stop) (body.fill s), env⟩ lo hi ↔
        (w.context m').Opens ⟨.loop comment var (.range start stop) (body.fill s'), env⟩ lo hi := by
      rw [hcontext m m' hS]
      exact fun lo hi => ⟨fun h => h.of_env rfl rfl, fun h => h.of_env rfl rfl⟩
    rcases runs_loop_iff.mp hn with ⟨lo, hi, hopens, hturns⟩ | ⟨hpasses, rfl⟩
    · rcases runs_loop_iff.mp hn' with ⟨lo', hi', hopens', hturns'⟩ | ⟨hpasses', -⟩
      · obtain ⟨rfl, rfl⟩ := hopens.unique ((hsame lo' hi').mpr hopens')
        refine runs_turns (integersBetween lo hi)
          (fun done i rest k k' l l' hsplit hdone hk hl hl' hrest => ?_) hS hturns hturns'
        refine ih hk (fun a a' b b' env' hvisits ha hb hb' ⟨more, hmore⟩ => ?_) hl hl'
        refine hvisit a a' b b' env' (.inside hm hopens hsplit hdone hvisits) ha hb hb' ?_
        exact ⟨_, runs_append_iff.mpr ⟨l, hmore, runs_append_iff.mpr ⟨n, hrest, hafter⟩⟩⟩
      · exact absurd ((hsame lo hi).mp hopens) (hpasses'.not_opens lo hi)
    · rcases runs_loop_iff.mp hn' with ⟨lo', hi', hopens', -⟩ | ⟨-, rfl⟩
      · exact absurd ((hsame lo' hi').mpr hopens') (hpasses.not_opens lo' hi')
      · exact hS

end Walker

end BayesGraph
