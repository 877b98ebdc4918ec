import BayesGraph.Construction
import BayesGraph.Printer

/-!
# Validation of models

`Model.check` accepts exactly the models that the rest of the library can work with: every part is
of the right kind, slices stand inside brackets only, left-hand sides are scalar variables, and no
loop variable is used twice on one path. The first offence in the order of the statements is
reported.
-/

set_option autoImplicit false

namespace BayesGraph

namespace Expr

/-- An offence inside a statement. -/
def refuse (c : Cause) (s : Stmt) : Except CompileError Unit :=
  .error ⟨c, none, some s.headline⟩

mutual

/-- Checks an expression of a statement. Slices are accepted in index position only. -/
def check (s : Stmt) (inIndex : Bool) : Expr → Except CompileError Unit
  | .literal val =>
    if val.isNumber then .ok () else refuse (.invalidLiteral val.describe) s
  | .var name =>
    match name with
    | .text t => if t.isEmpty then refuse (.invalidVariable name.describe) s else .ok ()
    | _ => refuse (.invalidVariable name.describe) s
  | .colon => if inIndex then .ok () else refuse .colonOutside s
  | .range start stop => do
    if inIndex then
      check s false start
      check s false stop
    else refuse .rangeOutside s
  | .index _ indices => checkAll s true indices
  | .negate val => check s false val
  | .add a b | .sub a b | .mul a b | .div a b | .pow a b => do
    check s false a
    check s false b
  | .call func arguments =>
    match func with
    | .text t =>
      if t.isEmpty then refuse (.invalidFunction func.describe) s
      else checkAll s false arguments
    | _ => refuse (.invalidFunction func.describe) s
  | .ref _ | .refArray _ _ => refuse .resolvedReference s
  | .raw object => refuse (.invalidExpression object.describe) s
  | .rawList items => refuse (.invalidExpression (describe (.rawList items))) s

/-- Checks the expressions of a list. -/
def checkAll (s : Stmt) (inIndex : Bool) : List Expr → Except CompileError Unit
  | [] => .ok ()
  | e :: rest => do
    check s inIndex e
    checkAll s inIndex rest

end

/-- Checks the indices of a left-hand side: none of them may be a slice. -/
def checkTargetIndices (s : Stmt) : List Expr → Except CompileError Unit
  | [] => .ok ()
  | e :: rest => do
    if e.isSlice then refuse .sliceTarget s
    else
      check s false e
      checkTargetIndices s rest

/-- Checks a left-hand side. -/
def checkTarget (s : Stmt) : Expr → Except CompileError Unit
  | .var _ => .ok ()
  | .index _ indices => checkTargetIndices s indices
  | _ => refuse .invalidTarget s

end Expr

namespace Stmt

mutual

/-- Checks a statement inside loops over the given variables. -/
def check (loops : List Datum) : Stmt → Except CompileError Unit
  | .sample comment lhs law => do
    let s : Stmt := .sample comment lhs law
    lhs.checkTarget s
    match law with
    | .raw object => Expr.refuse (.invalidDistribution object.describe) s
    | .dist d => Expr.checkAll s false d.parts
  | .assign comment lhs rhs => do
    let s : Stmt := .assign comment lhs rhs
    lhs.checkTarget s
    rhs.check s false
  | .loop comment var sequence body => do
    if loops.contains var then (Cause.shadowedLoop var.shown).alone
    else
      match sequence with
      | .range _ _ =>
        sequence.check (.loop comment var sequence body) true
        checkAll (loops ++ [var]) body
      | _ => (Cause.loopWithoutRange var.shown).alone
  | .raw object => (Cause.invalidStatement object.describe).alone

/-- Checks the statements of a list. -/
def checkAll (loops : List Datum) : List Stmt → Except CompileError Unit
  | [] => .ok ()
  | s :: rest => do
    check loops s
    checkAll loops rest

end

end Stmt

namespace Model

/-- Checks all statements of a model. -/
def check (m : Model) : Except CompileError Unit := Stmt.checkAll [] m.statements

/-- A model, provided that its statements are valid. -/
def make (statements : List Stmt) (name : String) : Except CompileError Model := do
  let m : Model := ⟨statements, name⟩
  m.check
  return m

end Model

end BayesGraph
