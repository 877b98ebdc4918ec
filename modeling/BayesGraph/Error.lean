import BayesGraph.Description

/-!
# Errors

Three groups of errors. A `CompileError` says what is wrong with a model, its data or a
registration; it carries a cause and, where known, the identity and the statement at fault. An
`EvalError` arises while numbers are computed. `Malformed` arises when a syntax tree that nobody
validated is printed or searched. `Failure` is any of them.

The wording of every error is in `Cause.text`, `CompileError.message`, `EvalError.message?` and
`Malformed.message?`.
-/

set_option autoImplicit false

namespace BayesGraph

/-- The classes of errors, from the general to the special. -/
inductive ErrorClass where
  | any
  | compilation
  | parse
  | shape
  | unresolved
  | cyclic
  | registration
  | unsupported
  | domain
  | dimension
deriving DecidableEq

/-- A class and the classes that contain it, from the special to the general. -/
def ErrorClass.lineage : ErrorClass → List ErrorClass
  | .any => [.any]
  | .compilation => [.compilation, .any]
  | .domain => [.domain, .any]
  | .dimension => [.dimension, .any]
  | c => [c, .compilation, .any]

/-- The use that is made of an integer: a bound of a loop or an index of an array. -/
inductive IndexUse where
  | loopBound
  | index
deriving DecidableEq

/-- The use in words. -/
def IndexUse.text : IndexUse → String
  | .loopBound => "loop bound"
  | .index => "index"

/-- What is wrong with a model, its data or a registration. -/
inductive Cause where
  -- malformed models
  | truthExpression (b : Bool)
  | notExpression (description kind : String)
  | noIndex (name : String)
  | invalidLiteral (description : String)
  | invalidVariable (description : String)
  | invalidFunction (description : String)
  | colonOutside
  | rangeOutside
  | resolvedReference
  | invalidExpression (description : String)
  | sliceTarget
  | invalidTarget
  | invalidDistribution (description : String)
  | shadowedLoop (name : String)
  | loopWithoutRange (name : String)
  | invalidStatement (description : String)
  | reservedName (name : String)
  | loopShadowsModel (name : String)
  | invalidDataName (description : String)
  | indexedLoopVariable (name : String)
  | assignedLoopVariable (name : String)
  | unresolvable (description : String)
  | parameterCount (family : String) (expected : List String) (found : Nat)
  -- shapes
  | notRectangular (name : String)
  | wrongRank (name : String) (rank used : Nat)
  | nonPositiveIndex
  | outOfBounds (shape : List Nat)
  | nonIntegerIndex (index value : String)
  | notData (use : IndexUse) (id : Identity)
  -- unresolved names
  | unknownFunction (quotedName : String)
  | undefinedIndex (use : IndexUse) (id : Identity)
  | unknownShape (name : String)
  | unknownDistribution (name : String)
  | missingValue
  | undefinedVariable
  -- the graph
  | cycle (ids : List Identity)
  -- registrations
  | notCallable (name : String)
  | classObject (name : String)
  | notPlainFunction (name : String)
  | wrongArity (name : String) (count : Nat) (signature : String)
  | invalidName (description : String)
  | nameTaken (name : String)
  | notFamily (kind : String)
  -- valid models without a density
  | notTruncatable (family : String)
  | discreteParameter

namespace Cause

/-- The class of the error. -/
def errorClass : Cause → ErrorClass
  | .truthExpression _ | .notExpression _ _ | .noIndex _ | .invalidLiteral _ | .invalidVariable _
  | .invalidFunction _ | .colonOutside | .rangeOutside | .resolvedReference
  | .invalidExpression _ | .sliceTarget | .invalidTarget | .invalidDistribution _
  | .shadowedLoop _ | .loopWithoutRange _ | .invalidStatement _ | .reservedName _
  | .loopShadowsModel _ | .invalidDataName _ | .indexedLoopVariable _ | .assignedLoopVariable _
  | .unresolvable _ | .parameterCount _ _ _ => .parse
  | .notRectangular _ | .wrongRank _ _ _ | .nonPositiveIndex | .outOfBounds _
  | .nonIntegerIndex _ _ | .notData _ _ => .shape
  | .unknownFunction _ | .undefinedIndex _ _ | .unknownShape _ | .unknownDistribution _
  | .missingValue | .undefinedVariable => .unresolved
  | .cycle _ => .cyclic
  | .notCallable _ | .classObject _ | .notPlainFunction _ | .wrongArity _ _ _ | .invalidName _
  | .nameTaken _ | .notFamily _ => .registration
  | .notTruncatable _ | .discreteParameter => .unsupported

/-- The identities of a cycle, joined by arrows. -/
def cycleText (ids : List Identity) : String :=
  "dependency graph contains a cycle (" ++ " -> ".intercalate (ids.map Identity.text) ++ ")"

/-- The cause in words. -/
def text : Cause → String
  | .truthExpression b =>
    "boolean " ++ (Datum.truth b).describe ++ " is not a valid expression"
  | .notExpression description kind =>
    "object " ++ description ++ " of type " ++ kind ++ " is not a valid expression"
  | .noIndex name => "indexed variable '" ++ name ++ "' needs at least one index"
  | .invalidLiteral description => "invalid literal " ++ description
  | .invalidVariable description => "invalid variable name " ++ description
  | .invalidFunction description => "invalid function name " ++ description
  | .colonOutside => "empty index outside brackets"
  | .rangeOutside => "range expression outside brackets"
  | .resolvedReference => "resolved references are not allowed in a model"
  | .invalidExpression description => "invalid expression " ++ description
  | .sliceTarget => "left-hand side must be a scalar variable"
  | .invalidTarget => "left-hand side must be a variable"
  | .invalidDistribution description => "invalid distribution " ++ description
  | .shadowedLoop name => "loop variable '" ++ name ++ "' shadows an enclosing loop variable"
  | .loopWithoutRange name => "loop over '" ++ name ++ "' requires a range"
  | .invalidStatement description => "invalid statement " ++ description
  | .reservedName name =>
    "variable '" ++ name ++ "' has the same name as a function or distribution"
  | .loopShadowsModel name => "loop variable '" ++ name ++ "' shadows a model variable"
  | .invalidDataName description => "invalid name " ++ description ++ " in the data"
  | .indexedLoopVariable name => "loop variable '" ++ name ++ "' can not be indexed"
  | .assignedLoopVariable name => "can not assign to loop variable '" ++ name ++ "'"
  | .unresolvable description => "unable to resolve expression " ++ description
  | .parameterCount family expected found =>
    "distribution '" ++ family ++ "' expects " ++ toString expected.length ++ " parameter(s) ("
      ++ ", ".intercalate expected ++ "), got " ++ toString found
  | .notRectangular name => "value of '" ++ name ++ "' is not a rectangular numeric array"
  | .wrongRank name rank used =>
    "'" ++ name ++ "' has " ++ toString rank ++ " dimension(s), but is used with "
      ++ toString used ++ " index(es)"
  | .nonPositiveIndex => "indices must be positive"
  | .outOfBounds shape => "index out of bounds for array of shape " ++ shapeText shape
  | .nonIntegerIndex index value =>
    "index `" ++ index ++ "` evaluates to non-integer value " ++ value
  | .notData use id => use.text ++ " depends on '" ++ id.text ++ "', which is not data"
  | .unknownFunction quotedName => "unknown function " ++ quotedName
  | .undefinedIndex use id =>
    use.text ++ " depends on '" ++ id.text ++ "', which is not defined and not in the data"
  | .unknownShape name => "shape of '" ++ name ++ "' is unknown"
  | .unknownDistribution name => "unknown distribution '" ++ name ++ "'"
  | .missingValue => "missing value in the data"
  | .undefinedVariable => "variable is not defined and not in the data"
  | .cycle ids => cycleText ids
  | .notCallable name => "'" ++ name ++ "' is not callable"
  | .classObject name => "'" ++ name ++ "' is a class, not a function"
  | .notPlainFunction name =>
    "'" ++ name ++ "' must be a plain function, not a generator or coroutine"
  | .wrongArity name count signature =>
    "'" ++ name ++ "' can not be called with " ++ toString count
      ++ " positional argument(s) (signature " ++ signature ++ ")"
  | .invalidName description => "invalid name " ++ description
  | .nameTaken name => "name '" ++ name ++ "' is already registered"
  | .notFamily kind => "expected a Family object, got " ++ kind
  | .notTruncatable family => "distribution '" ++ family ++ "' can not be truncated"
  | .discreteParameter =>
    "unobserved discrete variables can not be mapped to an unconstrained space"

end Cause

/-- An error that ends a compilation or a registration. -/
structure CompileError where
  cause : Cause
  /-- The variable at fault. -/
  identity : Option Identity := none
  /-- The statement at fault, as text. -/
  statement : Option String := none

namespace CompileError

/-- A text with the identity and the statement it is about. -/
def located (text : String) (identity statement : Option String) : String :=
  text ++ (match identity with | some v => " (variable '" ++ v ++ "')" | none => "")
    ++ (match statement with | some s => " in statement `" ++ s ++ "`" | none => "")

/-- The whole text of the error. -/
def message (e : CompileError) : String :=
  located e.cause.text (e.identity.map Identity.text) e.statement

end CompileError

/-- What can go wrong while numbers are computed. -/
inductive EvalError where
  /-- A function was called outside its domain. -/
  | domain (reason : String)
  /-- A number does not fit the format that it is converted to. -/
  | overflow
  /-- A division by zero between numbers that are known in advance. -/
  | zeroDivision
  /-- An operand of the wrong kind, or a wrong number of arguments. -/
  | wrongKind
  /-- An operand of the right kind with an unsuitable value or shape. -/
  | badValue
  /-- A text beside a computed value, where an array operation needs numbers. -/
  | textOperand
  /-- A number of a dimension that an array does not have. -/
  | badAxis
  /-- A case that a function leaves out on purpose. -/
  | unsupported
  /-- A branch on a value that is not known while a density is traced. -/
  | tracedBranch
  /-- A value is read off as a number that is not known while a density is traced. -/
  | tracedNumber
  /-- No function has this name. -/
  | unknownFunction (name : Datum)
  /-- No value is stored for this identity. -/
  | missing (id : Identity)
  /-- The value of this identity is not known at compile time. -/
  | notConstant (id : Identity)
  /-- An unresolved expression has no value. -/
  | unevaluable
deriving DecidableEq

namespace EvalError

/-- Errors of arithmetic, which a density turns into the value `-inf`. -/
def isArithmetic : EvalError → Bool
  | .domain _ | .overflow | .zeroDivision => true
  | _ => false

/-- Errors that only say that a value or a function is not available. -/
def isUnavailable : EvalError → Bool
  | .unknownFunction _ | .missing _ | .notConstant _ => true
  | _ => false

/-- The text of the error, where it has one. -/
def message? : EvalError → Option String
  | .domain reason => some reason
  | .notConstant id => some id.text
  | .unevaluable => some "unable to evaluate expression"
  | _ => none

end EvalError

/-- What can go wrong when a tree that nobody validated is printed or searched. -/
inductive Malformed where
  /-- An expression without a written form. -/
  | unprintable (shown : String)
  /-- A statement without a written form. -/
  | unprintableStatement (kind : String)
  /-- A plain object where variables are looked for in an expression. -/
  | noVariables
  /-- A plain object where variables are looked for in a statement. -/
  | noVariablesStatement (shown : String)
  /-- References are looked for in an unresolved expression. -/
  | unresolved
  /-- A plain object in place of a distribution or another structured part. -/
  | missingPart
  /-- A part of the wrong kind, such as a number in place of a name. -/
  | wrongKind
deriving DecidableEq

/-- The text of the error, where it has one. -/
def Malformed.message? : Malformed → Option String
  | .unprintable shown => some ("unable to deparse expression " ++ shown)
  | .unprintableStatement kind => some ("unable to deparse statement " ++ kind)
  | .noVariables => some "could not find variables in expression"
  | .noVariablesStatement shown => some ("could not find variables in statement " ++ shown)
  | .unresolved => some "could not find references in unresolved expression"
  | .missingPart | .wrongKind => none

/-- The text of the error for a parameter vector of the wrong length. -/
def dimensionMessage (expected found : Int) : String :=
  "parameter vector has length " ++ toString found ++ ", but the model has dimension "
    ++ toString expected

/-- Any error. -/
inductive Failure where
  | compile (e : CompileError)
  | eval (e : EvalError)
  | malformed (e : Malformed)
  /-- A parameter vector of the wrong length. -/
  | dimension (expected found : Nat)

end BayesGraph
