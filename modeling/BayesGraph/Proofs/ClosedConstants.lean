import BayesGraph.Dual
import BayesGraph.Proofs.Fixpoint
import BayesGraph.Registry

/-!
# Constants as a closed table

Rounds of folding extend the table of constants while they walk through loops whose bounds depend
on it. Nothing of this history is left in the result: it can be described by the loops as they are
expanded when all constants are known. The table agrees with the data; every other entry is the
value of a logical statement in this expansion; and no logical statement of the expansion whose
identity has no entry has a scalar value.
-/

set_option autoImplicit false

namespace BayesGraph

open Outcome

variable {α : Type} [Scalar α]

/-! ## The instances under one context -/

namespace Stmt

/-- The walk that lists all instances under one context, the last one first. -/
def lister (ctx : Context α) (strict : Bool) : Walker α (List Site) :=
  ⟨strict, fun _ => ctx, fun sites site => .ok (site :: sites)⟩

variable {ctx : Context α} {strict : Bool}

/-- The walk puts the instances without a loop over a range before those that it has. -/
theorem listed_of_trace {sites listed listed' : List Site} {events : List (List Site × Site)}
    (h : (lister ctx strict).Trace listed sites events listed') :
    listed' = ((events.map (·.2)).filter (·.range?.isNone)).reverse ++ listed := by
  induction h with
  | done => rfl
  | step hstep _ ih =>
    rw [ih, List.map_cons]
    rcases Walker.step_eq_ok_iff.mp hstep with ⟨hrange, hvisit, -⟩ |
        ⟨_, _, ⟨_, _, hrange, -⟩, rfl, -⟩ | ⟨_, _, hrange, -, -, rfl, -⟩
    · cases hvisit
      rw [List.filter_cons_of_pos (by simp [hrange]), List.reverse_cons, List.append_assoc]
      rfl
    all_goals rw [List.filter_cons_of_neg (by simp [hrange])]

/-- The walk can take a step at an instance unless it is a loop with a bound that fails for good. -/
theorem exists_step_lister {site : Site} (listed : List Site)
    (h : ∀ lower upper, site.range? = some (lower, upper) →
      ∀ e, ctx.evalBounds site lower upper = .error e → e.IsStuck) :
    ∃ mid inner, (lister ctx false).step listed site = .ok (mid, inner) ∧
      (inner = [] ∨ ∃ lo hi, ctx.Opens site lo hi ∧ inner = site.inner lo hi) := by
  cases hrange : site.range? with
  | none => exact ⟨_, _, Walker.step_eq_ok_iff.mpr (Or.inl ⟨hrange, rfl, rfl⟩), Or.inl rfl⟩
  | some range =>
    obtain ⟨lower, upper⟩ := range
    cases hbounds : ctx.evalBounds site lower upper with
    | ok b =>
      have hopens : ctx.Opens site b.1 b.2 := ⟨lower, upper, hrange, hbounds⟩
      exact ⟨_, _, Walker.step_eq_ok_iff.mpr (Or.inr (Or.inl ⟨_, _, hopens, rfl, rfl⟩)),
        Or.inr ⟨_, _, hopens, rfl⟩⟩
    | error e =>
      have hstuck := h lower upper hrange e hbounds
      exact ⟨_, _, Walker.step_eq_ok_iff.mpr (Or.inr (Or.inr
        ⟨lower, upper, hrange, rfl, ⟨e, hstuck, hbounds⟩, rfl, rfl⟩)), Or.inl rfl⟩

/-- If no loop bound to which a context leads fails for good, the instances under this context are
those to which it leads, without the loops themselves. -/
theorem instances_eq_reach {statements : List Stmt}
    (h : ∀ site ∈ ctx.reach (statements.map fun s => ⟨s, []⟩), ∀ lower upper,
      site.range? = some (lower, upper) → ∀ e, ctx.evalBounds site lower upper = .error e →
        e.IsStuck) :
    instances ctx false statements =
      .ok ((ctx.reach (statements.map fun s => ⟨s, []⟩)).filter (·.range?.isNone)) := by
  have hsteps : ∀ site ∈ ctx.reach (statements.map fun s => (⟨s, []⟩ : Site)), ∀ listed, True →
      ∃ mid inner, (lister ctx false).step listed site = .ok (mid, inner) ∧ True ∧
        (inner = [] ∨ ∃ lo hi, ctx.Opens site lo hi ∧ inner = site.inner lo hi) := by
    intro site hsite listed _
    obtain ⟨mid, inner, hstep, hinner⟩ := exists_step_lister listed (h site hsite)
    exact ⟨mid, inner, hstep, trivial, hinner⟩
  obtain ⟨listed, hruns, -⟩ : ∃ listed, (lister ctx false).Runs []
      (statements.map fun s => ⟨s, []⟩) listed ∧ True :=
    Walker.exists_runs (fun _ => True) trivial hsteps
  have hwalk := walkAll_eq_ok_iff.mpr hruns
  obtain ⟨events, htrace⟩ := hruns
  -- the context is the same all the time, so the trace is what it leads to
  have hevents : events.map (·.2) = ctx.reach (statements.map fun s => ⟨s, []⟩) :=
    (htrace.sublist_reach fun _ _ _ _ hopens => hopens).antisymm
      (htrace.reach_sublist fun _ _ _ _ hopens => hopens)
  have hlisted := listed_of_trace htrace
  rw [hevents, List.append_nil] at hlisted
  unfold instances
  change (walkAll (lister ctx false) [] [] statements >>= fun sites => pure sites.reverse) = _
  rw [hwalk, ok_bind, hlisted, List.reverse_reverse]
  rfl

end Stmt

/-! ## Logical statements under closed constants -/

/-- That a value is no number does not say that it is not available. -/
theorem Value.isUnavailable_of_toNumber {v : Value α} {e : EvalError}
    (h : v.toNumber = .error e) : e.isUnavailable = false := by
  have hscalar : v.toScalar = .error e := by
    unfold toNumber at h
    rcases bind_eq_error.mp h with h | ⟨x, -, h⟩
    · exact h
    · split at h <;> cases h
  unfold toScalar at hscalar
  split at hscalar
  · next s =>
    unfold Datum.readText at hscalar
    split at hscalar <;> cases hscalar
    rfl
  · cases hscalar
    rfl
  · next v _ _ =>
    rcases bind_eq_error.mp hscalar with htensor | ⟨t, -, hnone⟩
    · unfold toTensor ofNumber ofInt at htensor
      split at htensor
      · split at htensor
        · split at htensor <;> cases htensor
          rfl
        · cases htensor
      · cases htensor
      · cases htensor
      · next d _ hobject => exact (hobject d rfl).elim
    · split at hnone <;> cases hnone
      rfl

namespace Folding

/-- In a context, an instance of a logical statement gives an identity a value of any shape. -/
def Assigns (ctx : Context α) (site : Site) (id : Identity) (v : Value α) : Prop :=
  ∃ comment lhs rhs resolved, site.statement = .assign comment lhs rhs ∧
    ctx.resolveTarget site lhs = .ok id ∧ ctx.resolve site rhs = .ok resolved ∧
    resolved.eval ctx.folding = .ok v

/-- What an instance supports is a scalar that it assigns. -/
theorem Supports.assigns {ctx : Context α} {site : Site} {id : Identity} {n : Number α}
    (h : Supports ctx site id n) :
    site.range? = none ∧ ∃ v, Assigns ctx site id v ∧ v.shape = [] ∧ v.toNumber = .ok n := by
  obtain ⟨comment, lhs, rhs, resolved, v, hsite, hid, hresolved, hv, hshape, hn⟩ := h
  exact ⟨Site.range?_of_assign hsite, v,
    ⟨comment, lhs, rhs, resolved, hsite, hid, hresolved, hv⟩, List.isEmpty_iff.mp hshape, hn⟩

variable {functions : FunctionTable α} {shapes : Table String (List Nat)}
  {statements : List Stmt} {data : Bindings} {C : Constants α}

/-- A scalar that an instance assigns to an identity without a value is added, if it is a number. -/
theorem Assigns.exists_addition {ctx : Context α} {site : Site} {id : Identity} {v : Value α}
    (h : Assigns ctx site id v) (hnew : ctx.constants.contains id = false) (hshape : v.shape = []) :
    ∃ comment lhs rhs, site.statement = .assign comment lhs rhs ∧
      addition ctx site lhs rhs = (v.toNumber.map fun n => some (id, n)).mapError Failure.eval := by
  obtain ⟨comment, lhs, rhs, resolved, hstatement, hid, hresolved, hv⟩ := h
  refine ⟨comment, lhs, rhs, hstatement, ?_⟩
  have hscalar : v.shape.isEmpty = true := List.isEmpty_iff.mpr hshape
  unfold addition
  rw [hid, ok_bind, hnew, if_neg Bool.false_ne_true, hresolved, ok_bind, hv]
  change (if v.shape.isEmpty then _ else _) = _
  rw [if_pos hscalar]
  cases v.toNumber <;> rfl

/-- If constants are closed, no logical statement to which they lead assigns a scalar to an identity
without a value. -/
theorem Closed.shape_ne_nil (hC : Closed functions shapes statements C) {site : Site}
    (hsite : site ∈ (context functions shapes C).reach (start statements)) {id : Identity}
    {v : Value α} (h : Assigns (context functions shapes C) site id v) (hid : C.get? id = none) :
    v.shape ≠ [] := by
  intro hshape
  have hnew : (context functions shapes C).constants.contains id = false :=
    (Table.contains_eq_false_iff C id).mpr hid
  obtain ⟨comment, lhs, rhs, hstatement, haddition⟩ := h.exists_addition hnew hshape
  have hcases := hC.addition_cases hsite hstatement
  rw [haddition] at hcases
  cases hnumber : v.toNumber with
  | ok n =>
    rw [hnumber] at hcases
    rcases hcases with hnone | ⟨e, -, herror⟩
    · cases hnone
    · cases herror
  | error e =>
    -- a scalar that is no number is an error for good
    rw [hnumber] at hcases
    rcases hcases with hnone | ⟨_, hunavailable, herror⟩
    · cases hnone
    · cases herror
      change e.isUnavailable = true at hunavailable
      rw [Value.isUnavailable_of_toNumber hnumber] at hunavailable
      cases hunavailable

/-- The constants that are found agree with the data. Every other one is the value of a logical
statement in the loops as these constants expand them, and no logical statement there assigns a
scalar to an identity without a value. -/
theorem constants_supported_closed (h : constants functions statements data = .ok C) :
    (∀ id x, data.values.get? id = some x → C.get? id = some (x.map Scalar.ofDouble)) ∧
    ∃ sites, Stmt.instances (context functions data.shapes C) false statements = .ok sites ∧
      (∀ id n, C.get? id = some n → data.values.get? id = none → ∃ site ∈ sites, ∃ v,
        Assigns (context functions data.shapes C) site id v ∧ v.shape = [] ∧
        v.toNumber = .ok n) ∧
      (∀ site ∈ sites, ∀ id v, Assigns (context functions data.shapes C) site id v →
        C.get? id = none → v.shape ≠ []) := by
  have hclosed := closed_of_saturate h
  have hinstances := Stmt.instances_eq_reach fun site hsite _ _ hrange _ herror =>
    hclosed.isStuck_of_evalBounds hsite hrange herror
  refine ⟨fun id x hx => ?_, _, hinstances, fun id n hn hdata => ?_, fun site hsite id v => ?_⟩
  · refine ofData_le h id _ ?_
    unfold ofData
    rw [Table.get?_map, hx, Option.map_some]
  · rcases constants_cases h hn with hvalue | ⟨site, hsite, hsupports⟩
    · unfold ofData at hvalue
      rw [Table.get?_map, hdata] at hvalue
      cases hvalue
    · obtain ⟨hrange, hassigns⟩ := hsupports.assigns
      exact ⟨site, List.mem_filter.mpr ⟨hsite, Option.isNone_iff_eq_none.mpr hrange⟩, hassigns⟩
  · exact hclosed.shape_ne_nil (List.mem_filter.mp hsite).1

/-! ## A loop that opens late -/

/-- A copy of an array in a loop whose bound is defined behind it. -/
def lateBound : List Stmt :=
  [.loop [] (.text "i") (.range (.literal (.int 1)) (.var (.text "n")))
    [.assign [] (.index (.text "y") [.var (.text "i")]) (.index (.text "x") [.var (.text "i")])],
  .assign [] (.var (.text "n")) (.literal (.int 2))]

/-- The array that is copied. -/
def lateData : Bindings :=
  ⟨⟨[(⟨"x", [1]⟩, .int 5), (⟨"x", [2]⟩, .int 7)]⟩, ⟨[("x", [2])]⟩⟩

/-- The constants before the loop opens. -/
def earlyConstants : Constants Dual :=
  ⟨[(⟨"x", [1]⟩, .int 5), (⟨"x", [2]⟩, .int 7), (⟨"n", []⟩, .int 2)]⟩

/-- All constants. -/
def lateConstants : Constants Dual :=
  ⟨[(⟨"x", [1]⟩, .int 5), (⟨"x", [2]⟩, .int 7), (⟨"n", []⟩, .int 2), (⟨"y", [1]⟩, .int 5),
    (⟨"y", [2]⟩, .int 7)]⟩

/-- The first round passes over the loop, the second one copies the array. -/
theorem constants_lateBound :
    constants (Registry.builtin : Registry Dual).foldingFunctions lateBound lateData =
      .ok lateConstants := by
  have hround : round (Registry.builtin : Registry Dual).foldingFunctions lateData.shapes lateBound
      (ofData lateData) = .ok earlyConstants := rfl
  exact (saturate_of_round hround).trans (saturate_eq_ok rfl rfl)

/-- The context that all constants make. -/
def lateContext : Context Dual :=
  context (Registry.builtin : Registry Dual).foldingFunctions lateData.shapes lateConstants

/-- A copy is the value of a logical statement in the loop, as the constant `n` opens it, and the
loop has no further statement with a scalar value. -/
theorem lateBound_supported_closed :
    constants (Registry.builtin : Registry Dual).foldingFunctions lateBound lateData =
      .ok lateConstants ∧
    ∃ sites, Stmt.instances lateContext false lateBound = .ok sites ∧
      (∃ site ∈ sites, ∃ v, Assigns lateContext site ⟨"y", [2]⟩ v ∧ v.shape = [] ∧
        v.toNumber = .ok (.int 7)) ∧
      ∀ site ∈ sites, ∀ v, Assigns lateContext site ⟨"y", [3]⟩ v → v.shape ≠ [] := by
  obtain ⟨-, sites, hsites, hsupported, hclosed⟩ := constants_supported_closed constants_lateBound
  exact ⟨constants_lateBound, sites, hsites, hsupported ⟨"y", [2]⟩ (.int 7) rfl rfl,
    fun site hsite v hv => hclosed site hsite ⟨"y", [3]⟩ v hv rfl⟩

end Folding

end BayesGraph
