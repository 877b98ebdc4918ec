import BayesGraph.Double

/-!
# Numbers of a model

Integers and reals are kept apart, because indices and loop bounds have to be integers. A real
that is integral turns into an integer where a number enters the model.
-/

set_option autoImplicit false

namespace BayesGraph

/-- An integer, or a real of some kind. -/
inductive Number (ρ : Type) where
  | int (n : Int)
  | real (x : ρ)
deriving DecidableEq

namespace Number

/-- The integer zero is a number whatever the reals are. -/
instance {ρ : Type} : Inhabited (Number ρ) := ⟨.int 0⟩

/-- Replaces the reals. -/
def map {ρ σ : Type} (f : ρ → σ) : Number ρ → Number σ
  | .int n => .int n
  | .real x => .real (f x)

/-- The number that a double stands for: an integer if it is integral. -/
def ofDouble (x : Double) : Number Double :=
  match x.toInt? with
  | some n => .int n
  | none => .real x

end Number

/-- The double nearest to an integer; integers beyond the largest double have none. -/
def Double.ofInt? (n : Int) : Option Double :=
  let x := Double.ofInt n
  if x.isFinite then some x else none

end BayesGraph
