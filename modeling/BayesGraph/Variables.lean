import BayesGraph.Error
import BayesGraph.Table

/-!
# Names and references in syntax trees

Which variables, functions, loop variables and identities occur in a tree, in the order in which
they are written. In an unvalidated tree a name may be any object, so lists of names hold objects.
-/

set_option autoImplicit false

namespace BayesGraph

namespace Expr

mutual

/-- The names of the variables in an expression, loop variables included. -/
def variableNames : Expr → Except Malformed (List Datum)
  | .literal _ | .colon => return []
  | .var name => return [name]
  | .index name indices => return name :: (← variableNamesOfAll indices)
  | .range a b | .add a b | .sub a b | .mul a b | .div a b | .pow a b => do
    let left ← variableNames a
    let right ← variableNames b
    return left ++ right
  | .negate val => variableNames val
  | .call _ arguments => variableNamesOfAll arguments
  | .ref id => return [.text id.name]
  | .refArray ids _ => return ids.map (.text ·.name)
  | .raw _ | .rawList _ => .error .noVariables

/-- The names of the variables in the expressions of a list. -/
def variableNamesOfAll : List Expr → Except Malformed (List Datum)
  | [] => return []
  | e :: rest => do
    let names ← variableNames e
    let more ← variableNamesOfAll rest
    return names ++ more

end

mutual

/-- The identities that a resolved expression refers to. -/
def refs : Expr → Except Malformed (List Identity)
  | .literal _ => return []
  | .ref id => return [id]
  | .refArray ids _ => return ids
  | .negate val => refs val
  | .add a b | .sub a b | .mul a b | .div a b | .pow a b => do
    let left ← refs a
    let right ← refs b
    return left ++ right
  | .call _ arguments => refsOfAll arguments
  | .var _ | .colon | .range _ _ | .index _ _ | .raw _ | .rawList _ => .error .unresolved

/-- The identities that the resolved expressions of a list refer to. -/
def refsOfAll : List Expr → Except Malformed (List Identity)
  | [] => return []
  | e :: rest => do
    let ids ← refs e
    let more ← refsOfAll rest
    return ids ++ more

end

mutual

/-- The names of the functions that an expression calls. -/
def calls : Expr → List Datum
  | .call func arguments => func :: callsOfAll arguments
  | .negate val => calls val
  | .range a b | .add a b | .sub a b | .mul a b | .div a b | .pow a b => calls a ++ calls b
  | .index _ indices => callsOfAll indices
  | .literal _ | .var _ | .colon | .ref _ | .refArray _ _ | .raw _ | .rawList _ => []

/-- The names of the functions that the expressions of a list call. -/
def callsOfAll : List Expr → List Datum
  | [] => []
  | e :: rest => calls e ++ callsOfAll rest

end

/-- The name of the variable that an expression on a left-hand side defines. -/
def target? : Expr → Option Datum
  | .var name | .index name _ => some name
  | _ => none

end Expr

namespace Law

/-- The names of the variables in the parameters and bounds. -/
def variableNames : Law → Except Malformed (List Datum)
  | .dist d => Expr.variableNamesOfAll d.parts
  | .raw _ => .error .missingPart

end Law

namespace Stmt

mutual

/-- The names of the variables in a statement, loop variables included. -/
def variableNames : Stmt → Except Malformed (List Datum)
  | .sample _ lhs law => do
    let left ← lhs.variableNames
    let right ← law.variableNames
    return left ++ right
  | .assign _ lhs rhs => do
    let left ← lhs.variableNames
    let right ← rhs.variableNames
    return left ++ right
  | .loop _ var sequence body => do
    let range ← sequence.variableNames
    let inner ← variableNamesOfAll body
    return var :: range ++ inner
  | .raw object => .error (.noVariablesStatement object.shown)

/-- The names of the variables in the statements of a list. -/
def variableNamesOfAll : List Stmt → Except Malformed (List Datum)
  | [] => return []
  | s :: rest => do
    let names ← variableNames s
    let more ← variableNamesOfAll rest
    return names ++ more

end

mutual

/-- The loop variables of a statement and of its body, with repetitions. -/
def loopNames : Stmt → List Datum
  | .loop _ var _ body => var :: loopNamesOfAll body
  | .sample _ _ _ | .assign _ _ _ | .raw _ => []

/-- The loop variables of the statements of a list, with repetitions. -/
def loopNamesOfAll : List Stmt → List Datum
  | [] => []
  | s :: rest => loopNames s ++ loopNamesOfAll rest

end

/-- The loop variables of a list of statements, each once. -/
def loopVariables (statements : List Stmt) : List Datum := distinct (loopNamesOfAll statements)

mutual

/-- The names on the left-hand sides of a statement and of its body, with repetitions. -/
def targets : Stmt → List Datum
  | .sample _ lhs _ | .assign _ lhs _ => lhs.target?.toList
  | .loop _ _ _ body => targetsOfAll body
  | .raw _ => []

/-- The names on the left-hand sides of a list of statements, with repetitions. -/
def targetsOfAll : List Stmt → List Datum
  | [] => []
  | s :: rest => targets s ++ targetsOfAll rest

end

/-- The names on the left-hand sides of a list of statements, each once. -/
def definedNames (statements : List Stmt) : List Datum := distinct (targetsOfAll statements)

end Stmt

namespace Datum

/-- Can the object be a key of a table? Lists and records can not. -/
def isKey : Datum → Bool
  | .list _ | .record _ => false
  | _ => true

end Datum

/-- The names of the variables of a model, each once, without the loop variables. -/
def Model.variableNames (m : Model) : Except Malformed (List Datum) := do
  let names ← Stmt.variableNamesOfAll m.statements
  if names.all Datum.isKey then
    let loops := Stmt.loopVariables m.statements
    return (distinct names).filter fun name => !loops.contains name
  else .error .wrongKind

end BayesGraph
