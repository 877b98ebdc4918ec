import Mathlib
import BayesGraph.Proofs.ExactReals
import BayesGraph.Proofs.Renumbering

/-!
# Models are declarative

A model says which variables there are, and not in which order they come. If no identity is defined
twice, and no loop bound or left-hand side has an empty slot on an array without data, then all
arrangements of its statements can be built or none can, and their graphs differ in the numbers of
the nodes only. In exact arithmetic they have the same density.
-/

set_option autoImplicit false

namespace BayesGraph

open Outcome

/-- No identity is defined by two instances of the statements of a model that can be unrolled. -/
def Model.DefinesOnce {β : Type} [Scalar β] (m : Model) (bindings : Table String Datum)
    (functions : FunctionTable β) : Prop :=
  ∀ u, Unrolled.make m bindings functions = .ok u → (u.definitions.map (·.target)).Nodup

/-- This can be checked by unrolling the model. -/
theorem Model.definesOnce_of_all {β : Type} [Scalar β] {m : Model}
    {bindings : Table String Datum} {functions : FunctionTable β}
    (h : ((Unrolled.make m bindings functions).toOption.all fun u =>
      decide (u.definitions.map (·.target)).Nodup) = true) : m.DefinesOnce bindings functions := by
  intro u hu
  rw [hu] at h
  exact of_decide_eq_true h

/-- If a model can be unrolled and defines no identity twice, no rearrangement of it does. -/
theorem Model.definesOnce_rearranged {β : Type} [Scalar β] {m m' : Model}
    {bindings : Table String Datum} {functions : FunctionTable β}
    (h : Stmt.Rearranged m.statements m'.statements)
    (hslots : ∀ slot ∈ Stmt.leftSlotsOfAll m.statements, bindings.contains slot.name = true)
    {u : Unrolled β} (hu : Unrolled.make m bindings functions = .ok u)
    (hnodup : (u.definitions.map (·.target)).Nodup) : m'.DefinesOnce bindings functions := by
  obtain ⟨u', hu', hsame⟩ := Unrolled.make_rearranged h hu hslots hnodup
  intro v hv
  rw [hu', Except.ok.injEq] at hv
  subst hv
  exact (hsame.definitions.map _).nodup_iff.mp hnodup

namespace Graph

variable {β : Type} [Scalar β] {m m' : Model} {bindings : Table String Datum} {r₀ : Registry β}

/-- A rearrangement of a model without duplicate definitions can be built if the model can be, and
its graph is the same up to the numbers of the nodes. -/
theorem exists_build_rearranged (h : Stmt.Rearranged m.statements m'.statements)
    (hslots : ∀ slot ∈ Stmt.leftSlotsOfAll m.statements, bindings.contains slot.name = true)
    (honce : m.DefinesOnce bindings r₀.foldingFunctions) {g : Graph}
    (hg : (build m bindings r₀).collect.1 = .ok g) :
    ∃ g', (build m' bindings r₀).collect.1 = .ok g' ∧ g.Renumbered g' := by
  rw [build_result] at hg
  simp only [bind_eq_ok] at hg
  obtain ⟨used, hused, u, hu, hg⟩ := hg
  obtain ⟨used', hused'⟩ := Names.verdict_rearranged h hused
  obtain ⟨u', hu', hsame⟩ := Unrolled.make_rearranged h hu hslots (honce u hu)
  obtain ⟨g', hg', hrenumbered⟩ := ofUnrolled_rearranged hsame (honce u hu) hg
  refine ⟨g', ?_, hrenumbered⟩
  rw [build_result, hused', ok_bind, hu', ok_bind]
  exact hg'

/-- The variables `x` and `z` of a loop that runs up to `n`. -/
def pairedStatement : Stmt :=
  .assign [] (.index (.text "z") [.var (.text "i")])
    (.add (.index (.text "x") [.var (.text "i")]) (.literal (.int 1)))

/-- The distribution of `x`. -/
def drawnStatement : Stmt :=
  .sample [] (.index (.text "x") [.var (.text "i")])
    (.dist { name := .text "dnorm", params := [.literal (.int 0), .literal (.int 1)] })

/-- A loop up to `n` over some statements. -/
def countedLoop (body : List Stmt) : Stmt :=
  .loop [] (.text "i") (.range (.literal (.int 1)) (.var (.text "n"))) body

/-- The number of turns. -/
def countStatement : Stmt := .assign [] (.var (.text "n")) (.literal (.int 2))

/-- The bound of the loop is defined in front of the loop. -/
def countedModel : Model where
  statements := [countStatement, countedLoop [drawnStatement, pairedStatement]]

/-- The bound of the loop is defined behind the loop, and the body is turned around. -/
def countedBackwards : Model where
  statements := [countedLoop [pairedStatement, drawnStatement], countStatement]

/-- The model is rearranged into the other one, statement by statement. -/
theorem rearranged_countedModel :
    Stmt.Rearranged countedModel.statements countedBackwards.statements :=
  (Stmt.Rearranged.swap _ _ _).trans (.loop _ _ _ (.swap _ _ _) _)

/-- The data are the only constants of the model. -/
theorem constants_countedModel :
    Folding.constants (Registry.builtin : Registry Dual).foldingFunctions countedModel.statements
      ⟨⟨[]⟩, ⟨[]⟩⟩ = .ok ⟨[(⟨"n", []⟩, .int 2)]⟩ :=
  Folding.saturate_eq_ok rfl rfl

end Graph

end BayesGraph
