import BayesGraph.Extras
import BayesGraph.Validation
import BayesGraph.Proofs.Build
import BayesGraph.Proofs.Confluence
import BayesGraph.Proofs.FailingWalks

/-!
# Arithmetic errors while constants are folded

A density takes an overflow, a division by zero or a domain error of a function for the value
`-inf`, and the flattening of initial values leaves the node out. Folding does neither: it passes
over a right-hand side whose references are not known yet, but an arithmetic error ends the build.

Tolerant folding leaves a logical statement without a value in that case as well. A build is one
with tolerant folding exactly as long as no right-hand side that folding comes to raises an
arithmetic error; the first one that does is the outcome of the build.
-/

set_option autoImplicit false

namespace BayesGraph

open Outcome

variable {α : Type} [Scalar α]

namespace Folding

/-! ## Repeated rounds -/

/-- Rounds of some kind until one adds nothing, with their outcome. -/
inductive Saturates (round : Constants α → Except Failure (Constants α)) :
    Constants α → Except Failure (Constants α) → Prop
  | failed {K : Constants α} {e : Failure} (hround : round K = .error e) :
      Saturates round K (.error e)
  | settled {K next : Constants α} (hround : round K = .ok next) (hsize : next.size = K.size) :
      Saturates round K (.ok next)
  | again {K next : Constants α} {outcome : Except Failure (Constants α)}
      (hround : round K = .ok next) (hsize : next.size ≠ K.size)
      (hnext : Saturates round next outcome) : Saturates round K outcome

variable {functions : FunctionTable α} {shapes : Table String (List Nat)}
  {statements : List Stmt} {K K' : Constants α}

/-- The rounds of folding end as they are meant to end, by a failure or because one adds nothing. -/
theorem saturates_saturate (functions : FunctionTable α) (shapes : Table String (List Nat))
    (statements : List Stmt) (K : Constants α) :
    Saturates (round functions shapes statements) K (saturate functions shapes statements K) := by
  induction K using saturate.induct functions shapes statements with
  | case1 K e hround =>
    rw [saturate, hround]
    exact .failed hround
  | case2 K next hround hsize =>
    rw [saturate_of_round hround, if_pos hsize]
    exact .settled hround hsize
  | case3 K next hround hsize hless ih =>
    rw [saturate_of_round hround, if_neg hsize]
    exact .again hround hsize ih
  | case4 K next hround hsize hless => exact absurd (round_less hround hsize) hless

/-! ## Right-hand sides that raise an error -/

/-- The constants after an addition; an unavailable value adds nothing. -/
def record (K : Constants α) :
    Except Failure (Option (Identity × Number α)) → Except Failure (Constants α)
  | .ok (some (id, n)) => .ok (K.insert id n)
  | .ok none => .ok K
  | .error e => if e.isUnavailable then .ok K else .error e

/-- A visit of a logical statement records what the statement adds. -/
theorem visit_eq_record {site : Site} {comment : List String} {lhs rhs : Expr}
    (hsite : site.statement = .assign comment lhs rhs) :
    visit functions shapes K site =
      record K (addition (context functions shapes K) site lhs rhs) := by
  unfold visit
  rw [hsite]
  dsimp only
  cases addition (context functions shapes K) site lhs rhs with
  | error e => rfl
  | ok result => cases result <;> rfl

/-- The right-hand side of a logical statement without a value raises an error. -/
def RaisesAt (ctx : Context α) (site : Site) (e : EvalError) : Prop :=
  ∃ comment lhs rhs id, site.statement = .assign comment lhs rhs ∧
    ctx.resolveTarget site lhs = .ok id ∧ ctx.constants.contains id = false ∧
    supply ctx site rhs id = .error (.eval e)

/-- In some round, folding comes to a right-hand side that raises an error. -/
inductive Raises (functions : FunctionTable α) (shapes : Table String (List Nat))
    (statements : List Stmt) : Constants α → EvalError → Prop
  | now {K L : Constants α} {site : Site} {e : EvalError}
      (hcomes : (walker functions shapes).Comes K (start statements) L site)
      (hraises : RaisesAt (context functions shapes L) site e) :
      Raises functions shapes statements K e
  | later {K next : Constants α} {e : EvalError}
      (hround : round functions shapes statements K = .ok next) (hsize : next.size ≠ K.size)
      (hnext : Raises functions shapes statements next e) : Raises functions shapes statements K e

omit [Scalar α] in
/-- An arithmetic error does not say that a value is not available. -/
theorem isUnavailable_of_isArithmetic {e : EvalError} (he : e.isArithmetic = true) :
    (Failure.eval e).isUnavailable = false := by
  cases e <;> first | rfl | cases he

/-- At a right-hand side that raises an arithmetic error the step of a round fails. -/
theorem step_of_raisesAt {site : Site} {e : EvalError} (he : e.isArithmetic = true)
    (h : RaisesAt (context functions shapes K) site e) :
    (walker functions shapes).step K site = .error (.eval e) := by
  obtain ⟨comment, lhs, rhs, id, hsite, hid, hnew, hsupply⟩ := h
  have hrange : site.range? = none := Site.range?_of_assign hsite
  have hadd : addition (context functions shapes K) site lhs rhs = .error (.eval e) := by
    rw [addition_eq, hid, ok_bind, hnew, if_neg Bool.false_ne_true, hsupply]
  have hvisit : visit functions shapes K site = .error (.eval e) := by
    rw [visit_eq_record hsite, hadd]
    exact if_neg (by simp [isUnavailable_of_isArithmetic he])
  unfold Walker.step
  rw [hrange]
  exact bind_eq_error.mpr (Or.inl hvisit)

/-- A right-hand side that raises an arithmetic error ends all rounds with it. -/
theorem saturate_of_raises {e : EvalError} (he : e.isArithmetic = true)
    (h : Raises functions shapes statements K e) :
    saturate functions shapes statements K = .error (.eval e) := by
  induction h with
  | now hcomes hraises =>
    have hround : round functions shapes statements _ = .error (.eval _) :=
      Stmt.walkAll_eq_error_iff.mpr ⟨_, _, hcomes, step_of_raisesAt he hraises⟩
    rw [saturate, hround]
  | later hround hsize _ ih => rw [saturate_of_round hround, if_neg hsize, ih he]

/-! ## Tolerant folding -/

/-- What a logical statement supplies, nothing if its right-hand side raises an arithmetic error. -/
def supplyTolerantly (ctx : Context α) (site : Site) (rhs : Expr) (id : Identity) :
    Except Failure (Option (Identity × Number α)) :=
  match supply ctx site rhs id with
  | .error (.eval e) => if e.isArithmetic then .ok none else .error (.eval e)
  | result => result

/-- The identity and the value that a logical statement adds, if its right-hand side has a value
and that is a new scalar. -/
def additionTolerantly (ctx : Context α) (site : Site) (lhs rhs : Expr) :
    Except Failure (Option (Identity × Number α)) := do
  let id ← ctx.resolveTarget site lhs
  if ctx.constants.contains id then return none else supplyTolerantly ctx site rhs id

/-- A visit that leaves a statement whose right-hand side raises an arithmetic error unfolded. -/
def visitTolerantly (functions : FunctionTable α) (shapes : Table String (List Nat))
    (K : Constants α) (site : Site) : Except Failure (Constants α) :=
  match site.statement with
  | .assign _ lhs rhs => record K (additionTolerantly (context functions shapes K) site lhs rhs)
  | _ => .ok K

/-- The walk of a tolerant round. -/
def tolerantWalker (functions : FunctionTable α) (shapes : Table String (List Nat)) :
    Walker α (Constants α) :=
  ⟨false, context functions shapes, visitTolerantly functions shapes⟩

/-- A round of tolerant folding. -/
def roundTolerantly (functions : FunctionTable α) (shapes : Table String (List Nat))
    (statements : List Stmt) (K : Constants α) : Except Failure (Constants α) :=
  Stmt.walkAll (tolerantWalker functions shapes) [] K statements

/-- Where no arithmetic error is raised, tolerance makes no difference to what is supplied. -/
theorem supplyTolerantly_eq {ctx : Context α} {site : Site} {rhs : Expr} {id : Identity}
    (h : ∀ e, e.isArithmetic = true → supply ctx site rhs id ≠ .error (.eval e)) :
    supplyTolerantly ctx site rhs id = supply ctx site rhs id := by
  unfold supplyTolerantly
  split
  · next e hsupply =>
    rw [hsupply, if_neg fun he => h e he hsupply]
  · rfl

/-- Nor does it to a visit. -/
theorem visitTolerantly_eq {site : Site}
    (h : ∀ e, e.isArithmetic = true → ¬ RaisesAt (context functions shapes K) site e) :
    visitTolerantly functions shapes K site = visit functions shapes K site := by
  unfold visitTolerantly
  split
  · next comment lhs rhs hsite =>
    rw [visit_eq_record hsite, addition_eq]
    unfold additionTolerantly
    cases hid : (context functions shapes K).resolveTarget site lhs with
    | error e => rfl
    | ok id =>
      rw [ok_bind, ok_bind]
      split
      · rfl
      · next hnew =>
        rw [Bool.not_eq_true] at hnew
        rw [supplyTolerantly_eq fun e he hsupply =>
          h e he ⟨comment, lhs, rhs, id, hsite, hid, hnew, hsupply⟩]
  · next hother =>
    unfold visit
    split
    · next comment lhs rhs hsite => exact absurd hsite (hother comment lhs rhs)
    · rfl

/-- Nor to a step. -/
theorem tolerant_step_eq {site : Site}
    (h : ∀ e, e.isArithmetic = true → ¬ RaisesAt (context functions shapes K) site e) :
    (walker functions shapes).step K site = (tolerantWalker functions shapes).step K site := by
  unfold Walker.step
  cases site.range? with
  | none =>
    change (visit functions shapes K site >>= fun L => .ok (L, [])) =
      (visitTolerantly functions shapes K site >>= fun L => .ok (L, []))
    rw [visitTolerantly_eq h]
  | some range => rfl

/-- Nor to a round. -/
theorem roundTolerantly_eq
    (h : ∀ e, e.isArithmetic = true → ¬ Raises functions shapes statements K e) :
    roundTolerantly functions shapes statements K = round functions shapes statements K := by
  refine (Stmt.walkAll_congr (w := walker functions shapes) fun L site hcomes => ?_).symm
  exact tolerant_step_eq fun e he hraises => h e he (.now hcomes hraises)

/-- As long as no right-hand side raises an arithmetic error, folding is tolerant folding. -/
theorem saturates_tolerantly
    (h : ∀ e, e.isArithmetic = true → ¬ Raises functions shapes statements K e) :
    Saturates (roundTolerantly functions shapes statements) K
      (saturate functions shapes statements K) := by
  have hsaturates := saturates_saturate functions shapes statements K
  generalize saturate functions shapes statements K = outcome at hsaturates
  induction hsaturates with
  | failed hround => exact .failed ((roundTolerantly_eq h).trans hround)
  | settled hround hsize => exact .settled ((roundTolerantly_eq h).trans hround) hsize
  | again hround hsize _ ih =>
    refine .again ((roundTolerantly_eq h).trans hround) hsize (ih fun e he hraises => ?_)
    exact h e he (.later hround hsize hraises)

end Folding

namespace Graph

/-- How a build goes on with an outcome of folding. -/
def buildFrom (m : Model) (data : Bindings) (r : Registry α)
    (folded : Except Failure (Folding.Constants α)) : Except Failure Graph := do
  let constants ← folded
  let u ← Unrolled.makeWith m data constants r.foldingFunctions
  ofUnrolled u r

/-- Behind the checks of names and data, a build folds constants and goes on with them. -/
theorem build_eq_buildFrom {m : Model} {bindings : Table String Datum} {r : Registry α}
    {names : List Datum} {data : Bindings}
    (hnames : Names.verdict m bindings.keys r.contains = .ok names)
    (hdata : Bindings.flatten bindings = .ok data) :
    (build m bindings r).collect.1 =
      buildFrom m data r (Folding.constants r.foldingFunctions m.statements data) := by
  rw [build_result, hnames, Unrolled.make_eq, hdata]
  simp only [ok_bind]
  unfold buildFrom
  cases Folding.constants r.foldingFunctions m.statements data <;> rfl

/-- If a right-hand side that folding comes to raises an arithmetic error, the build fails with this
error. If none does, the build is one that leaves such statements unfolded. -/
theorem build_of_folding {m : Model} {bindings : Table String Datum} {r : Registry α}
    {names : List Datum} {data : Bindings}
    (hnames : Names.verdict m bindings.keys r.contains = .ok names)
    (hdata : Bindings.flatten bindings = .ok data) :
    (∀ e, e.isArithmetic = true →
      Folding.Raises r.foldingFunctions data.shapes m.statements (Folding.ofData data) e →
      (build m bindings r).collect.1 = .error (.eval e)) ∧
    ((∀ e, e.isArithmetic = true →
      ¬ Folding.Raises r.foldingFunctions data.shapes m.statements (Folding.ofData data) e) →
      ∃ folded,
        Folding.Saturates (Folding.roundTolerantly r.foldingFunctions data.shapes m.statements)
          (Folding.ofData data) folded ∧
        (build m bindings r).collect.1 = buildFrom m data r folded) := by
  have hbuild := build_eq_buildFrom hnames hdata
  constructor
  · intro e he hraises
    have hconstants : Folding.constants r.foldingFunctions m.statements data = .error (.eval e) :=
      Folding.saturate_of_raises he hraises
    rw [hbuild, hconstants]
    rfl
  · intro hnone
    exact ⟨_, Folding.saturates_tolerantly hnone, hbuild⟩

/-! ## A logarithm of a negative number -/

/-- The built-in registry with a logarithm that refuses numbers that are not positive. -/
def checkedRegistry : Registry Dual where
  families := Registry.builtin.families
  functions := Registry.builtin.functions.insert "checked_log"
    (Extras.function [.required "x"] Extras.checkedLog)
  foldingFunctions := Registry.builtin.foldingFunctions.insert "checked_log"
    (Extras.function [.required "x"] Extras.checkedLog)

/-- The value of `x` has no logarithm, and nothing depends on it. -/
def checkedModel : Model where
  statements :=
    [.assign [] (.var (.text "x")) (.call (.text "checked_log") [.literal (.int (-1))]),
    .sample [] (.var (.text "y"))
      (.dist { name := .text "dnorm", params := [.literal (.int 0), .literal (.int 1)] })]

/-- Folding comes to the right-hand side that raises the error. -/
theorem raises_checkedModel :
    Folding.Raises checkedRegistry.foldingFunctions Table.empty checkedModel.statements
      (Folding.ofData Bindings.empty) (.domain "log of non-positive value") := by
  refine .now (.here _ _ _) ⟨_, _, _, ⟨"x", []⟩, rfl, rfl, rfl, ?_⟩
  rfl

/-- The error ends the build. -/
theorem build_checkedModel :
    (∃ names, Names.verdict checkedModel (Table.empty : Table String Datum).keys
      checkedRegistry.contains = .ok names) ∧
    Bindings.flatten Table.empty = .ok Bindings.empty ∧
    (build checkedModel Table.empty checkedRegistry).collect.1 =
      .error (.eval (.domain "log of non-positive value")) := by
  have hnames : Names.verdict checkedModel (Table.empty : Table String Datum).keys
      checkedRegistry.contains = .ok [.text "x", .text "y"] := rfl
  exact ⟨⟨_, hnames⟩, rfl, (build_of_folding hnames rfl).1 _ rfl raises_checkedModel⟩

/-- With tolerant folding, the model has a graph in which `x` is a logical node. -/
theorem not_tolerated_checkedModel :
    checkedModel.check = .ok () ∧
    ∃ folded g,
      Folding.Saturates (Folding.roundTolerantly checkedRegistry.foldingFunctions Table.empty
        checkedModel.statements) (Folding.ofData Bindings.empty) folded ∧
      buildFrom checkedModel Bindings.empty checkedRegistry folded = .ok g ∧
      (∃ n ∈ g.nodes, n.id = ⟨"x", []⟩ ∧ n.role.isLogical = true) ∧
      (build checkedModel Table.empty checkedRegistry).collect.1 ≠ .ok g := by
  have hround : Folding.roundTolerantly checkedRegistry.foldingFunctions Table.empty
      checkedModel.statements (Folding.ofData Bindings.empty) =
        .ok Table.empty := rfl
  have hnode : ∃ g, buildFrom checkedModel Bindings.empty checkedRegistry
      (.ok Table.empty) = .ok g ∧ ∃ n ∈ g.nodes, n.id = ⟨"x", []⟩ ∧ n.role.isLogical = true := by
    exact ⟨_, rfl, _, List.mem_cons_self, rfl, rfl⟩
  obtain ⟨g, hg, hx⟩ := hnode
  refine ⟨rfl, _, g, .settled hround rfl, hg, hx, ?_⟩
  have hfolding : Folding.constants checkedRegistry.foldingFunctions checkedModel.statements
      Bindings.empty = .error (.eval (.domain "log of non-positive value")) :=
    Folding.saturate_of_raises rfl raises_checkedModel
  have hnames : Names.verdict checkedModel (Table.empty : Table String Datum).keys
      checkedRegistry.contains = .ok [.text "x", .text "y"] := rfl
  rw [build_eq_buildFrom hnames rfl, hfolding]
  rintro ⟨⟩

end Graph

end BayesGraph
