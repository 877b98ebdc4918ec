import BayesGraph.Datum.Entries
import BayesGraph.Log
import BayesGraph.Shape

/-!
# Bindings of data and initial values

A binding gives a name a number or a nested list of numbers. `Bindings.flatten` takes the arrays
apart into scalar identities with indices counted from one, and notes their shapes. A missing
entry, written as nothing or as a NaN, has no identity in the result.
-/

set_option autoImplicit false

namespace BayesGraph

/-- The most dimensions that an array of data may have. -/
def maxRank : Nat := 64

/-- Flattened bindings: the values that are present, and the shapes of all names. -/
structure Bindings where
  values : Table Identity (Number Double)
  shapes : Table String (List Nat)

namespace Bindings

/-- Bindings of no names. -/
def empty : Bindings := ⟨Table.empty, Table.empty⟩

/-- Adds the entries that are not missing. -/
def addEntries (name : String) (values : Table Identity (Number Double))
    (entries : List (List Nat × Double)) : Table Identity (Number Double) :=
  entries.foldl (fun t e =>
    if e.2.isNaN then t else t.insert ⟨name, e.1.map Int.ofNat⟩ (Number.ofDouble e.2)) values

/-- An entry of a binding as a double; an object that is no number makes the binding unfit. -/
def entry (name : String) (d : Datum) : Except Failure Double :=
  match d.entry with
  | .ok x => .ok x
  | .error .overflow => .error (.eval .overflow)
  | .error _ => .error (.compile ⟨.notRectangular name, none, none⟩)

/-- Adds one name. -/
def add (b : Bindings) (name : String) (value : Datum) : Except Failure Bindings := do
  match value.shape? with
  | none => throw (.compile ⟨.notRectangular name, none, none⟩)
  | some shape =>
    if maxRank < shape.length then throw (.compile ⟨.notRectangular name, none, none⟩)
    let entries ← value.leaves.mapM (entry name)
    return ⟨addEntries name b.values ((indexProduct shape).zip entries), b.shapes.insert name shape⟩

/-- Flattens bindings of different names, in order. -/
def flatten (bindings : Table String Datum) : Except Failure Bindings :=
  bindings.entries.foldlM (fun b e => b.add e.1 e.2) empty

end Bindings

end BayesGraph
