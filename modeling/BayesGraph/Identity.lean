import BayesGraph.Datum

/-!
# Identities of scalar variables

An identity is a name with indices counted from one. Two occurrences with equal identities mean
the same scalar variable. A variable without indices is its name alone.
-/

set_option autoImplicit false

namespace BayesGraph

/-- A scalar variable: a name and the position in its array. -/
structure Identity where
  name : String
  indices : List Int := []
deriving DecidableEq, Inhabited

namespace Identity

/-- A name with index texts in brackets. -/
def bracketed (name : String) (indices : List String) : String :=
  if indices.isEmpty then name else name ++ "[" ++ ", ".intercalate indices ++ "]"

/-- The identity as it is written in a model. -/
def text (v : Identity) : String := bracketed v.name (v.indices.map toString)

/-- An identity is shown as it is written in a model. -/
instance : ToString Identity := ⟨text⟩

/-- The identity as error texts show it. -/
def describe (v : Identity) : String :=
  "VarName(name=" ++ Text.quoted v.name ++ ", indices="
    ++ Datum.tuple (v.indices.map toString) ++ ")"

end Identity

/-- A shape, or a list of indices, in parentheses. -/
def shapeText {ν : Type} [ToString ν] (dims : List ν) : String := Datum.tuple (dims.map toString)

end BayesGraph
