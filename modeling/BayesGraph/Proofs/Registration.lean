import BayesGraph.Proofs.Shapes
import BayesGraph.Proofs.Unrolling
import BayesGraph.Proofs.Walks

/-!
# The registration of left-hand sides

The first walk of an unrolling resolves one left-hand side after the other and lets the shapes of
arrays grow. In each of its states the table of shapes describes exactly the identities registered
so far, and an identity that is registered stays.
-/

set_option autoImplicit false

namespace BayesGraph

open Outcome

/-- The left-hand side of an instance, if it has one. -/
def Site.lhs? (site : Site) : Option Expr :=
  match site.statement with
  | .sample _ lhs _ | .assign _ lhs _ => some lhs
  | .loop _ _ _ _ | .raw _ => none

/-- The left-hand side of an assignment. -/
theorem Site.lhs?_of_assign {site : Site} {comment : List String} {lhs rhs : Expr}
    (h : site.statement = .assign comment lhs rhs) : site.lhs? = some lhs := by
  unfold lhs?
  rw [h]

/-- A statement with a left-hand side is no loop. -/
theorem Site.range?_of_lhs {site : Site} {lhs : Expr} (h : site.lhs? = some lhs) :
    site.range? = none := by
  unfold lhs? at h
  unfold range?
  split at h
  · next hstatement => rw [hstatement]
  · next hstatement => rw [hstatement]
  · cases h
  · cases h

namespace Unrolled

variable {α : Type} [Scalar α] {context : ShapeTable → Context α} {p p' : Progress} {site : Site}

/-- An instance is registered with the identity that its left-hand side resolves to. -/
theorem visitTarget_eq_ok_iff : visitTarget context p site = .ok p' ↔
    ∃ lhs id source shapes, site.lhs? = some lhs ∧
      (context p.shapes).resolveTarget site lhs = .ok id ∧ site.source = .ok source ∧
      p.shapes.observe id (some source) = .ok shapes ∧ p' = ⟨shapes, (site, id) :: p.targets⟩ := by
  unfold visitTarget Site.lhs?
  cases site.statement with
  | sample _ lhs _ | assign _ lhs _ =>
    simp only [ok_bind, bind_eq_ok, pure_eq_ok, Context.explain_eq_ok, lift_malformed_eq_ok,
      lift_compile_eq_ok, Option.some.injEq]
    constructor
    · rintro ⟨id, hid, source, hsource, shapes, hshapes, rfl⟩
      exact ⟨lhs, id, source, shapes, rfl, hid, hsource, hshapes, rfl⟩
    · rintro ⟨_, id, source, shapes, rfl, hid, hsource, hshapes, rfl⟩
      exact ⟨id, hid, source, hsource, shapes, hshapes, rfl⟩
  | loop _ _ _ _ | raw _ => simp

/-- The identities registered so far. -/
def Progress.ids (p : Progress) : List Identity := p.targets.map (·.2)

/-- The table of shapes describes the identities registered so far, beside the shapes of data. -/
def Progress.Sound (data : Table String (List Nat)) (p : Progress) : Prop :=
  p.shapes.Describes data p.ids

/-- At first nothing is registered. -/
theorem sound_start (data : Table String (List Nat)) :
    Progress.Sound data ⟨ShapeTable.ofData data, []⟩ :=
  ShapeTable.describes_ofData data

/-- A registration is strict: in a step it opens a loop, or it registers the identity of another
instance. -/
theorem registering_step_eq_ok_iff {inner : List Site} :
    (registering context).step p site = .ok (p', inner) ↔
      (∃ lo hi, (context p.shapes).Opens site lo hi ∧ p' = p ∧ inner = site.inner lo hi) ∨
      ∃ lhs id source shapes, site.lhs? = some lhs ∧
        (context p.shapes).resolveTarget site lhs = .ok id ∧ site.source = .ok source ∧
        p.shapes.observe id (some source) = .ok shapes ∧
        p' = ⟨shapes, (site, id) :: p.targets⟩ ∧ inner = [] := by
  rw [Walker.step_eq_ok_iff]
  constructor
  · rintro (⟨-, hvisit, rfl⟩ | hopens | ⟨_, _, -, hstrict, -⟩)
    · obtain ⟨lhs, id, source, shapes, hlhs, hid, hsource, hobserve, rfl⟩ :=
        visitTarget_eq_ok_iff.mp hvisit
      exact Or.inr ⟨lhs, id, source, shapes, hlhs, hid, hsource, hobserve, rfl, rfl⟩
    · exact Or.inl hopens
    · cases hstrict
  · rintro (hopens | ⟨lhs, id, source, shapes, hlhs, hid, hsource, hobserve, rfl, rfl⟩)
    · exact Or.inr (Or.inl hopens)
    · exact Or.inl ⟨Site.range?_of_lhs hlhs, visitTarget_eq_ok_iff.mpr
        ⟨lhs, id, source, shapes, hlhs, hid, hsource, hobserve, rfl⟩, rfl⟩

/-- A step of the registration keeps the state, or it registers one more identity. -/
theorem registering_step {inner : List Site}
    (h : (registering context).step p site = .ok (p', inner)) :
    p' = p ∨ ∃ id source, p.shapes.observe id source = .ok p'.shapes ∧
      p'.targets = (site, id) :: p.targets := by
  rcases registering_step_eq_ok_iff.mp h with ⟨_, _, -, rfl, -⟩ |
      ⟨_, id, source, _, -, -, -, hobserve, rfl, -⟩
  · exact Or.inl rfl
  · exact Or.inr ⟨id, some source, hobserve, rfl⟩

/-- A step of the registration keeps the state sound. -/
theorem sound_of_step {data : Table String (List Nat)} {inner : List Site}
    (h : (registering context).step p site = .ok (p', inner)) (hp : p.Sound data) :
    p'.Sound data := by
  rcases registering_step h with rfl | ⟨id, source, hobserve, htargets⟩
  · exact hp
  · unfold Progress.Sound Progress.ids at hp ⊢
    rw [htargets, List.map_cons]
    exact hp.observe hobserve

/-- All states of a registration are sound. -/
theorem sound_of_trace {data : Table String (List Nat)} {sites : List Site}
    {events : List (Progress × Site)}
    (h : (registering context).Trace p sites events p') (hp : p.Sound data) :
    p'.Sound data ∧ ∀ e ∈ events, e.1.Sound data :=
  h.invariant (Progress.Sound data) hp fun _ _ _ _ hsound hstep => sound_of_step hstep hsound

/-- A registration ends in a sound state. -/
theorem sound_of_runs {data : Table String (List Nat)} {sites : List Site}
    (h : (registering context).Runs p sites p') (hp : p.Sound data) : p'.Sound data := by
  obtain ⟨events, h⟩ := h
  exact (sound_of_trace h hp).1

/-- What is registered stays registered. -/
theorem targets_suffix_of_trace {sites : List Site} {events : List (Progress × Site)}
    (h : (registering context).Trace p sites events p') : p.targets <:+ p'.targets := by
  refine (h.invariant (p.targets <:+ ·.targets) List.suffix_rfl fun e _ mid inner hkept hstep =>
    ?_).1
  rcases registering_step hstep with rfl | ⟨id, _, -, htargets⟩
  · exact hkept
  · rw [htargets]
    exact hkept.trans (List.suffix_cons _ _)

/-- An identity that was registered at some time is registered in the end. -/
theorem ids_subset_of_trace {sites : List Site} {events : List (Progress × Site)}
    (h : (registering context).Trace p sites events p') {e : Progress × Site} (he : e ∈ events) :
    ∀ id ∈ e.1.ids, id ∈ p'.ids := by
  obtain ⟨_, _, htrace, -⟩ := h.of_mem he
  intro id hid
  obtain ⟨t, ht, rfl⟩ := List.mem_map.mp hid
  exact List.mem_map_of_mem ((targets_suffix_of_trace htrace).subset ht)

/-- An instance with a left-hand side to which the registration comes is registered, with the
identity that its left-hand side has there. -/
theorem registered_of_trace {sites : List Site} {events : List (Progress × Site)}
    (h : (registering context).Trace p sites events p') {e : Progress × Site} (he : e ∈ events)
    {lhs : Expr} (hlhs : e.2.lhs? = some lhs) :
    ∃ id, (context e.1.shapes).resolveTarget e.2 lhs = .ok id ∧ (e.2, id) ∈ p'.targets := by
  obtain ⟨rest, later, htrace, -⟩ := h.of_mem he
  cases htrace with
  | step hstep hrest =>
    rcases registering_step_eq_ok_iff.mp hstep with ⟨_, _, ⟨_, _, hrange, -⟩, -⟩ |
        ⟨lhs', id, _, _, hlhs', hid, -, -, rfl, -⟩
    · cases (Site.range?_of_lhs hlhs).symm.trans hrange
    · cases hlhs.symm.trans hlhs'
      exact ⟨id, hid, (targets_suffix_of_trace hrest).subset List.mem_cons_self⟩

end Unrolled

end BayesGraph
