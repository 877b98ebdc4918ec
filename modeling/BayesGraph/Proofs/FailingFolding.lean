import BayesGraph.Proofs.FailingUnrolling
import BayesGraph.Proofs.FoldingRounds

/-!
# How folding fails

Folding asks for the bounds of loops, and for the two sides of logical statements without a value. A
task that fails ends the unrolling, unless its failure is tolerated (`Folding.Tolerates`): folding
passes over what is not known yet.
-/

set_option autoImplicit false

namespace BayesGraph

open Outcome

namespace Folding

variable {α : Type} [Scalar α] {functions : FunctionTable α} {shapes : Table String (List Nat)}
  {statements : List Stmt} {K L : Constants α} {site : Site}

/-- Folding passes over a loop if a value is not known, and over a logical statement also if a
function is not. -/
def Tolerates (site : Site) (f : Failure) : Prop :=
  if site.range?.isSome then f.IsStuck else f.isUnavailable = true

/-- An error that is not tolerated is none of those that mean waiting. -/
theorem not_isStuck_of_not_tolerates {f : Failure} (h : ¬ Tolerates site f) : ¬ f.IsStuck := by
  unfold Tolerates at h
  split at h
  · exact h
  · exact fun hstuck => h (isUnavailable_of_isStuck hstuck)

/-- An error about the model is not tolerated. -/
theorem not_tolerates_compile {e : CompileError} : ¬ Tolerates site (.compile e) := by
  unfold Tolerates
  split
  · rintro ⟨_, ⟨⟩⟩
  · exact Bool.false_ne_true

/-- A task that folding asks for at an instance: in the bounds of a loop, or in one of the sides of
a logical statement. -/
inductive AsksFor (ctx : Context α) (site : Site) : Task → Prop
  /-- The bounds of a loop, or the left-hand side. -/
  | index {t x : Task}
      (hsite : site.range?.isSome = true ∨ ∃ comment lhs rhs,
        site.statement = .assign comment lhs rhs)
      (htask : Outcome.ComesTo (ctx.run site) site.indexTasks t) (hmeets : ctx.Meets site t x) :
      AsksFor ctx site x
  /-- The right-hand side, if the left-hand side has no value yet. -/
  | value {comment : List String} {lhs rhs : Expr} {id : Identity} {x : Task}
      (hs : site.statement = .assign comment lhs rhs) (hid : ctx.resolveTarget site lhs = .ok id)
      (hnew : ctx.constants.contains id = false) (hmeets : ctx.Meets site (.expr rhs) x) :
      AsksFor ctx site x

/-- The instances that folding comes to are valid. -/
theorem ComesTo.valid {m : Model} (hm : m.check = .ok ())
    (h : ComesTo functions shapes m.statements K L site) : site.statement.Valid := by
  induction h with
  | now hcomes => exact Unrolled.valid_of_comes hm hcomes
  | later _ _ _ ih => exact ih

/-! ## Steps at loops -/

/-- The step of folding at a loop fails exactly if a bound does, with a failure that is not
tolerated. -/
theorem step_loop_eq_error_iff {start stop : Expr} (hrange : site.range? = some (start, stop))
    {f : Failure} :
    (walker functions shapes).step K site = .error f ↔
      (context functions shapes K).runAll site site.indexTasks = .error f ∧
        ¬ Tolerates site f := by
  have htolerates : Tolerates site f ↔ f.IsStuck := by
    unfold Tolerates
    rw [hrange]
    exact Iff.rfl
  have hbounds : (walker functions shapes).bounds K site start stop = .error f ↔
      (context functions shapes K).evalBounds site start stop = .error f ∧ ¬ f.IsStuck := by
    rw [Walker.bounds_eq_error_iff]
    constructor
    · rintro ⟨_, hf, rfl, hknown⟩
      exact ⟨hf, hknown⟩
    · rintro ⟨hf, hknown⟩
      exact ⟨f, hf, rfl, hknown⟩
  unfold Walker.step Site.indexTasks
  rw [hrange, htolerates]
  dsimp only
  rw [Context.runAll_bounds, discard_eq_error, ← hbounds, bind_eq_error, or_iff_left_iff_imp]
  rintro ⟨bounds, -, hrest⟩
  cases bounds <;> cases hrest

/-! ## Steps at logical statements -/

variable {comment : List String} {lhs rhs : Expr}

/-- At an assignment the errors are tolerated that say that something is not available. -/
theorem tolerates_assign (hs : site.statement = .assign comment lhs rhs) {f : Failure} :
    Tolerates site f ↔ f.isUnavailable = true := by
  unfold Tolerates Site.range?
  rw [hs]
  exact Iff.rfl

/-- The step of folding at a logical statement fails exactly if what it would add does, with a
failure that is not tolerated. -/
theorem step_assign_eq_error_iff (hs : site.statement = .assign comment lhs rhs) {f : Failure} :
    (walker functions shapes).step K site = .error f ↔
      addition (context functions shapes K) site lhs rhs = .error f ∧ ¬ Tolerates site f := by
  rw [tolerates_assign hs]
  unfold Walker.step Site.range?
  rw [hs]
  dsimp only [walker]
  rw [visit_eq_record hs]
  cases addition (context functions shapes K) site lhs rhs with
  | ok result => cases result <;> simp [record, bind, Except.bind, pure, Except.pure]
  | error f' =>
    rw [Except.error.injEq]
    unfold record
    dsimp only
    split
    · next hf =>
      refine ⟨nofun, ?_⟩
      rintro ⟨rfl, hknown⟩
      exact absurd hf hknown
    · next hf =>
      rw [error_bind, Except.error.injEq, iff_self_and]
      rintro rfl
      exact hf

/-- The index expressions of an assignment are those of its left-hand side. -/
theorem indexTasks_assign (hs : site.statement = .assign comment lhs rhs) :
    site.indexTasks = lhs.targetTasks := by
  unfold Site.indexTasks Site.range? Site.lhs?
  rw [hs]
  rfl

/-- What an assignment adds for a new identity is what its right-hand side supplies. -/
theorem addition_of_new {ctx : Context α} {id : Identity}
    (hid : ctx.resolveTarget site lhs = .ok id) (hnew : ctx.constants.contains id = false) :
    addition ctx site lhs rhs = supply ctx site rhs id := by
  rw [addition_eq, hid, ok_bind, hnew, if_neg Bool.false_ne_true]

/-- What a logical statement adds fails if its left-hand side does, or if what its right-hand side
supplies for a new constant does. -/
theorem addition_eq_error_iff {ctx : Context α} {f : Failure} :
    addition ctx site lhs rhs = .error f ↔
      ctx.resolveTarget site lhs = .error f ∨
        ∃ id, ctx.resolveTarget site lhs = .ok id ∧ ctx.constants.contains id = false ∧
          supply ctx site rhs id = .error f := by
  rw [addition_eq, bind_eq_error]
  refine or_congr_right (exists_congr fun id => and_congr_right fun hid => ?_)
  cases ctx.constants.contains id <;> simp [pure, Except.pure]

/-- A task that fails ends the step of folding, unless the failure is tolerated. -/
theorem AsksFor.step_eq_error {x : Task} (h : AsksFor (context functions shapes K) site x)
    (hsite : site.statement.Valid) {f : Failure}
    (hx : (context functions shapes K).run site x = .error f) (hknown : ¬ Tolerates site f) :
    (walker functions shapes).step K site = .error f := by
  cases h with
  | @index t _ hkind htask hmeets =>
    have ht := hmeets.run_eq_error ((Site.valid_tasks hsite).1 t htask.mem) hx
    have hindices := Context.runAll_eq_error_iff.mpr ⟨t, htask, ht⟩
    rcases hkind with hloop | ⟨_, _, _, hs⟩
    · obtain ⟨⟨start, stop⟩, hrange⟩ := Option.isSome_iff_exists.mp hloop
      exact (step_loop_eq_error_iff hrange).mpr ⟨hindices, hknown⟩
    · rw [indexTasks_assign hs] at hindices
      exact (step_assign_eq_error_iff hs).mpr
        ⟨addition_eq_error_iff.mpr (Or.inl (Context.resolveTarget_eq_error hindices)), hknown⟩
  | @value _ _ rhs id _ hs hid hnew hmeets =>
    have hrhs : Task.Valid site.statement (.expr rhs) :=
      (Site.valid_tasks hsite).2 _ (Site.meaningTasks_assign hs ▸ List.mem_singleton_self _)
    have hresolve := discard_eq_error.mp (hmeets.run_eq_error hrhs hx)
    refine (step_assign_eq_error_iff hs).mpr ⟨?_, hknown⟩
    rw [addition_of_new hid hnew]
    exact bind_eq_error.mpr (Or.inl hresolve)

end Folding

namespace Unrolled

variable {α : Type} [Scalar α] {m : Model} {bindings : Table String Datum} {data : Bindings}
  {functions : FunctionTable α} {site : Site}

/-- An unrolling fails with a step of folding that fails. -/
theorem make_eq_error_of_comesTo {L : Folding.Constants α} {f : Failure}
    (hdata : Bindings.flatten bindings = .ok data)
    (hcomes : Folding.ComesTo functions data.shapes m.statements (Folding.ofData data) L site)
    (hstep : (Folding.walker functions data.shapes).step L site = .error f) :
    make m bindings functions = .error f := by
  have hfolding : Folding.constants functions m.statements data = .error f :=
    Folding.saturate_eq_error_iff.mpr ⟨L, site, hcomes, hstep⟩
  rw [make_eq, hdata, ok_bind, hfolding]
  rfl

end Unrolled

end BayesGraph
