import BayesGraph.Error
import BayesGraph.Table

/-!
# Shapes of arrays

A shape table holds the shapes of all arrays of a model. Shapes of data are fixed. Any other array
is as large as the left-hand sides of the model require: each dimension is the largest index that
was observed there.
-/

set_option autoImplicit false

namespace BayesGraph

/-- All index tuples of an array with the given shape, counted from one, in row-major order. -/
def indexProduct : List Nat → List (List Nat)
  | [] => [[]]
  | n :: rest => (List.range n).flatMap fun i => (indexProduct rest).map ((i + 1) :: ·)

/-- Known shapes, and which of them are fixed. -/
structure ShapeTable where
  fixed : Table String (List Nat)
  shapes : Table String (List Nat)

namespace ShapeTable

/-- The table of the shapes of data. -/
def ofData (shapes : Table String (List Nat)) : ShapeTable := ⟨shapes, shapes⟩

/-- The shape of an array. -/
def shape? (t : ShapeTable) (name : String) : Option (List Nat) := t.shapes.get? name

/-- Is the shape of the array known? -/
def contains (t : ShapeTable) (name : String) : Bool := t.shapes.contains name

/-- Checks the number of indices of an identity, and that all of them are positive. -/
def checkRank (t : ShapeTable) (id : Identity) (statement : Option String) :
    Except CompileError Unit :=
  let positive : Except CompileError Unit :=
    if id.indices.all (1 ≤ ·) then .ok () else .error ⟨.nonPositiveIndex, some id, statement⟩
  match t.shape? id.name with
  | none => positive
  | some shape =>
    if shape.length = id.indices.length then positive
    else .error ⟨.wrongRank id.name shape.length id.indices.length, some id, statement⟩

/-- Do all indices lie within the shape? -/
def within (indices : List Int) (shape : List Nat) : Bool :=
  (indices.zip shape).all fun p => decide (p.1 ≤ p.2)

/-- Checks an identity against the shape of its array, if that is known. -/
def checkBounds (t : ShapeTable) (id : Identity) (statement : Option String) :
    Except CompileError Unit := do
  t.checkRank id statement
  match t.shape? id.name with
  | none => return ()
  | some shape =>
    if within id.indices shape then return ()
    else throw ⟨.outOfBounds shape, some id, statement⟩

/-- The larger of two shapes of one rank, dimension by dimension. -/
def join (a b : List Nat) : List Nat := List.zipWith max a b

/-- Registers a left-hand side. Arrays of data have to contain it, and others grow. -/
def observe (t : ShapeTable) (id : Identity) (statement : Option String) :
    Except CompileError ShapeTable := do
  t.checkRank id statement
  if t.fixed.contains id.name then
    t.checkBounds id statement
    return t
  else
    let indices := id.indices.map Int.toNat
    let shape :=
      match t.shape? id.name with
      | none => indices
      | some shape => join shape indices
    return { t with shapes := t.shapes.insert id.name shape }

/-- All identities of an array, in row-major order. -/
def identities? (t : ShapeTable) (name : String) : Option (List Identity) :=
  (t.shape? name).map fun shape =>
    (indexProduct shape).map fun is => ⟨name, is.map Int.ofNat⟩

end ShapeTable

end BayesGraph
