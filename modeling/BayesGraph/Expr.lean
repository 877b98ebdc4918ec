import BayesGraph.Identity

/-!
# Expressions, distributions and statements

The syntax of models. Loop variables, array names and slices are written by name; a resolved
expression refers to scalar identities instead (`ref`, `refArray`). A plain object can stand
anywhere (`raw`, `rawList`, and as a name or a literal); only validation refuses it.
-/

set_option autoImplicit false

namespace BayesGraph

/-- An expression. -/
inductive Expr where
  /-- A number. -/
  | literal (val : Datum)
  /-- A scalar variable, a loop variable or an array. -/
  | var (name : Datum)
  /-- An index slot left empty: the whole dimension. -/
  | colon
  /-- All integers from `start` to `stop`. -/
  | range (start stop : Expr)
  /-- An element or a slice of an array. -/
  | index (name : Datum) (indices : List Expr)
  | negate (val : Expr)
  | add (left right : Expr)
  | sub (left right : Expr)
  | mul (left right : Expr)
  | div (num den : Expr)
  | pow (base exponent : Expr)
  /-- A function call. -/
  | call (func : Datum) (arguments : List Expr)
  /-- The scalar variable with this identity. -/
  | ref (id : Identity)
  /-- A rectangular block of scalar variables, in row-major order. -/
  | refArray (ids : List Identity) (shape : List Nat)
  /-- A plain object in place of an expression. -/
  | raw (object : Datum)
  /-- A plain list of expressions and objects in place of an expression. -/
  | rawList (items : List Expr)
deriving Inhabited

namespace Expr

/-- Does an index select a whole range of positions? -/
def isSlice : Expr → Bool
  | .colon | .range _ _ => true
  | _ => false

end Expr

/-- A distribution with parameters and optional truncation bounds. -/
structure Dist where
  name : Datum
  params : List Expr
  lower : Option Expr := none
  upper : Option Expr := none
deriving Inhabited

namespace Dist

/-- Is there a truncation bound? -/
def truncated (d : Dist) : Bool := d.lower.isSome || d.upper.isSome

/-- The truncation bounds that are present, the lower one first. -/
def bounds (d : Dist) : List Expr := d.lower.toList ++ d.upper.toList

/-- Parameters and bounds. -/
def parts (d : Dist) : List Expr := d.params ++ d.bounds

end Dist

/-- What stands on the right of a stochastic statement. -/
inductive Law where
  | dist (d : Dist)
  /-- A plain object in place of a distribution. -/
  | raw (object : Datum)
deriving Inhabited

/-- A statement, with the comments behind it. -/
inductive Stmt where
  /-- A stochastic statement. -/
  | sample (comment : List String) (lhs : Expr) (law : Law)
  /-- A logical statement. -/
  | assign (comment : List String) (lhs rhs : Expr)
  /-- A loop over the integers of a range. -/
  | loop (comment : List String) (var : Datum) (sequence : Expr) (body : List Stmt)
  /-- Something else in place of a statement. -/
  | raw (object : Expr)
deriving Inhabited

/-- A model: statements and a name. -/
structure Model where
  statements : List Stmt
  name : String := "model"
deriving Inhabited

end BayesGraph
