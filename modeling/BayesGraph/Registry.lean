import BayesGraph.Builtin.Densities
import BayesGraph.Builtin.Functions
import BayesGraph.Construction
import BayesGraph.Eval
import BayesGraph.Names

/-!
# Registries

A registry holds the functions and the families of distributions that a model may use. Functions
are held twice, for the evaluation of densities and for the folding of constants. Names are used
once: a registration under a name that is taken, or of an object that is no plain function of the
right arity, is refused and changes nothing.
-/

set_option autoImplicit false

namespace BayesGraph

/-- The functions and families of one compilation session. -/
structure Registry (α : Type) where
  families : Table String (Family α)
  functions : FunctionTable α
  foldingFunctions : FunctionTable α

/-- An object that is offered as a family: a family, or another object of some kind. -/
inductive FamilyOffer (α : Type) where
  | family (f : Family α)
  | other (kind : String)

namespace Registry

variable {α : Type}

/-- The registry without any names. -/
def empty : Registry α := ⟨Table.empty, Table.empty, Table.empty⟩

/-- The registry of the built-in functions and families. -/
def builtin [Scalar α] : Registry α where
  families := Table.ofList (Builtin.families.map fun f => (f.name, f))
  functions := Table.ofList (Builtin.callables .density)
  foldingFunctions := Table.ofList (Builtin.callables .folding)

/-- Is the name taken? -/
def contains (r : Registry α) (name : String) : Bool :=
  r.families.contains name || r.functions.contains name

/-- All names. -/
def names (r : Registry α) : List String := r.families.keys ++ r.functions.keys

/-- The names that are not built in. -/
def added [Scalar α] (r : Registry α) : List String :=
  let known := (builtin : Registry α).names
  r.names.filter (!known.contains ·)

/-- Checks that a name is well-formed and free. -/
def checkName (r : Registry α) (name : Datum) : Except CompileError String :=
  match name with
  | .text s =>
    if Names.isIdentifier s then
      if r.contains s then (Cause.nameTaken s).alone else .ok s
    else (Cause.invalidName name.describe).alone
  | _ => (Cause.invalidName name.describe).alone

/-- Registers a function, with the number of its arguments if that is to be checked. -/
def registerFunction (r : Registry α) (name : Datum) (f : Callable α) (count : Option Nat) :
    Except CompileError (Registry α) := do
  let s ← r.checkName name
  f.check s count
  return { r with
    functions := r.functions.insert s f
    foldingFunctions := r.foldingFunctions.insert s f }

/-- Registers a family. -/
def registerFamily (r : Registry α) (offer : FamilyOffer α) :
    Except CompileError (Registry α) := do
  match offer with
  | .other kind => (Cause.notFamily kind).alone
  | .family f =>
    let s ← r.checkName (.text f.name)
    f.logPdf.check s (some (f.params.length + 1))
    f.support.check s (some f.params.length)
    match f.logCdf with
    | some c => c.check s (some (f.params.length + 1))
    | none => pure ()
    return { r with families := r.families.insert s f }

/-- The family of a name. -/
def family (r : Registry α) (name : Datum) : Except CompileError (Family α) :=
  match name.text?.bind r.families.get? with
  | some f => .ok f
  | none => (Cause.unknownDistribution name.shown).alone

/-- The function of a name. -/
def function (r : Registry α) (name : Datum) : Except CompileError (Callable α) :=
  match name.text?.bind r.functions.get? with
  | some f => .ok f
  | none => (Cause.unknownFunction ("'" ++ name.shown ++ "'")).alone

end Registry

end BayesGraph
