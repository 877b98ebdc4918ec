import BayesGraph.Callable

/-!
# Families of distributions

A family is a record of functions: the logarithm of the density (or of the mass), the support as a
pair of bounds that can depend on the parameters, and possibly the logarithm of the distribution
function, without which the family can not be truncated.
-/

set_option autoImplicit false

namespace BayesGraph

/-- The kinds of supports. -/
inductive SupportKind where
  | real
  | positive
  | unit
  | interval
  | lower
  | integer
deriving DecidableEq

/-- The kind by name. -/
def SupportKind.text : SupportKind → String
  | .real => "real"
  | .positive => "positive"
  | .unit => "unit"
  | .interval => "interval"
  | .lower => "lower"
  | .integer => "integer"

/-- A lower and an upper bound; an absent one means that there is none. -/
structure Support (α : Type) where
  lower : Option (Value α) := none
  upper : Option (Value α) := none

/-- A function of a point and parameters, entry by entry. -/
abbrev PointFunction (α : Type) : Type := α → List α → α

/-- A family of distributions. -/
structure Family (α : Type) where
  name : String
  params : List String
  logPdf : Routine (PointFunction α)
  support : Routine (List (Value α) → Support α)
  supportKind : SupportKind
  discrete : Bool := false
  logCdf : Option (Routine (PointFunction α)) := none

namespace Family

variable {α : Type}

/-- Is a truncated distribution of the family defined? -/
def truncatable (f : Family α) : Bool := f.logCdf.isSome

end Family

end BayesGraph
