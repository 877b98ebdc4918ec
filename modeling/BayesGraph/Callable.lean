import BayesGraph.Value

/-!
# Callable objects

What may be registered under a name: an object with a form, a signature and a meaning. The form
tells functions from other objects. The signature lists the parameters, from which follows with
how many positional arguments a call can be made.
-/

set_option autoImplicit false

namespace BayesGraph

/-- A parameter of a function. -/
inductive Parameter where
  /-- An argument that has to be given. -/
  | required (name : String)
  /-- An argument that may be left out; its default as it is written. -/
  | optional (name default : String)
  /-- Any number of further arguments. -/
  | variadic (name : String)
  /-- An argument that can not be given by position. -/
  | keyword (name : String)
deriving DecidableEq

namespace Parameter

/-- The parameter as it is written. -/
def text : Parameter → String
  | .required name => name
  | .optional name default => name ++ "=" ++ default
  | .variadic name => "*" ++ name
  | .keyword name => name

/-- Does the parameter need an argument? -/
def isRequired : Parameter → Bool
  | .required _ => true
  | _ => false

/-- Is the parameter given by its position? -/
def isPositional : Parameter → Bool
  | .required _ | .optional _ _ => true
  | _ => false

/-- Does the parameter take all further arguments? -/
def isVariadic : Parameter → Bool
  | .variadic _ => true
  | _ => false

/-- Is the parameter given by its name only? -/
def isKeyword : Parameter → Bool
  | .keyword _ => true
  | _ => false

end Parameter

/-- The parameters of a function. -/
abbrev Signature : Type := List Parameter

namespace Signature

/-- The parameters as they are written; a star alone stands before parameters that can not be
given by position. -/
def texts (afterStar : Bool) : Signature → List String
  | [] => []
  | p :: rest =>
    if p.isKeyword && !afterStar then "*" :: p.text :: texts true rest
    else p.text :: texts (afterStar || p.isVariadic) rest

/-- The signature in parentheses. -/
def text (s : Signature) : String := "(" ++ ", ".intercalate (texts false s) ++ ")"

/-- Can a call be made with this number of positional arguments? -/
def accepts (s : Signature) (count : Nat) : Bool :=
  !s.any Parameter.isKeyword && decide (s.countP Parameter.isRequired ≤ count)
    && (s.any Parameter.isVariadic || decide (count ≤ s.countP Parameter.isPositional))

end Signature

/-- What kind of object a callable is. -/
inductive CallableForm where
  | function
  /-- A function that suspends instead of returning: a generator or a coroutine. -/
  | suspending
  | typeObject
  | notCallable
deriving DecidableEq

/-- An object with a meaning of some type. -/
structure Routine (μ : Type) where
  form : CallableForm := .function
  /-- Some functions do not tell their parameters. -/
  signature : Option Signature := none
  meaning : μ

namespace Routine

/-- Checks that an object is a function that can be called with `count` arguments. -/
def check {μ : Type} (name : String) (r : Routine μ) (count : Option Nat) :
    Except CompileError Unit :=
  match r.form with
  | .notCallable => .error ⟨.notCallable name, none, none⟩
  | .typeObject => .error ⟨.classObject name, none, none⟩
  | .suspending => .error ⟨.notPlainFunction name, none, none⟩
  | .function =>
    match count, r.signature with
    | some n, some s =>
      if s.accepts n then .ok () else .error ⟨.wrongArity name n s.text, none, none⟩
    | _, _ => .ok ()

end Routine

/-- How the calls of an evaluation are made. While a density is traced, computed values are not
yet known, and a function that branches on one fails. -/
inductive CallMode where
  | direct
  | traced
deriving DecidableEq

/-- The meaning of a function of a model. -/
abbrev Operation (α : Type) : Type := CallMode → List (Value α) → Except EvalError (Value α)

/-- A function of a model. -/
abbrev Callable (α : Type) : Type := Routine (Operation α)

end BayesGraph
