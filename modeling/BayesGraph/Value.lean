import BayesGraph.Datum.Entries
import BayesGraph.Scalar
import BayesGraph.Word

/-!
# Values

A value is a number that is known before anything is computed, a word that a function computed from
integers, an array of computed reals, or another object of the model.

Two sets of rules are in use. `folding` evaluates constants while a model is compiled, and accepts
integers of any size in some places. `density` evaluates the density: it requires integers of 64
bits wherever a known number meets a computed one, and it flushes machine numbers that are too small
to have all their digits. A computed value remembers the rules under which it was computed, because
a function that always follows the rules of the density can be called while constants are folded.
-/

set_option autoImplicit false

namespace BayesGraph

/-- The two sets of rules of evaluation. -/
inductive Rules where
  | folding
  | density
deriving DecidableEq

namespace Rules

/-- The rules for an operation on two computed values: those of the density prevail. -/
def join : Rules → Rules → Rules
  | .folding, .folding => .folding
  | _, _ => .density

variable {α : Type} [Scalar α]

/-- A scalar as an operation takes and returns it. -/
def settle (rules : Rules) (x : α) : α :=
  match rules with
  | .folding => x
  | .density => Scalar.flush x

/-- A function of one scalar between settled scalars. -/
def unary (rules : Rules) (f : α → α) (x : α) : α := rules.settle (f (rules.settle x))

/-- A function of two scalars between settled scalars. -/
def binary (rules : Rules) (f : α → α → α) (x y : α) : α :=
  rules.settle (f (rules.settle x) (rules.settle y))

end Rules

/-- A value over a type of scalars. -/
inductive Value (α : Type) where
  /-- A number of the model or the data, or the result of exact arithmetic on such numbers. -/
  | number (n : Number α)
  /-- A computed integer of 64 bits. -/
  | word (origin : Rules) (w : Word)
  /-- Computed reals. -/
  | array (origin : Rules) (t : Tensor α)
  /-- An object of the model that is no number. -/
  | object (d : Datum)

namespace Value

variable {α : Type}

/-- A known integer. -/
def int (n : Int) : Value α := .number (.int n)

/-- A known real. -/
def real (x : α) : Value α := .number (.real x)

/-- A real of a density. -/
def scalar (x : α) : Value α := .array .density (.scalar x)

/-- The integer zero is a value of every type of scalars. -/
instance : Inhabited (Value α) := ⟨.int 0⟩

/-- Is the value known before anything is computed? -/
def isKnown : Value α → Bool
  | .number _ | .object _ => true
  | .word _ _ | .array _ _ => false

/-- Is the value the absent object? -/
def isNothing : Value α → Bool
  | .object .nothing => true
  | _ => false

/-- Is the value a text? -/
def isText : Value α → Bool
  | .object (.text _) => true
  | _ => false

/-- The rules under which a value was computed. -/
def origin : Value α → Rules
  | .word r _ | .array r _ => r
  | .number _ | .object _ => .folding

/-- The same value as the result of a function with the given rules. -/
def under (rules : Rules) : Value α → Value α
  | .word _ w => .word rules w
  | .array _ t => .array rules t
  | v => v

/-- The integer that a value is without any rounding. -/
def integer? : Value α → Option Int
  | .number (.int n) => some n
  | .word _ w => some w.toInt
  | _ => none

/-- The shape of the value as an array. -/
def shape : Value α → List Nat
  | .array _ t => t.shape
  | .object d => d.shape?.getD []
  | .number _ | .word _ _ => []

variable [Scalar α]

/-- The scalar of an integer that is not beyond the largest double. -/
def ofInt (n : Int) : Except EvalError α :=
  match Double.ofInt? n with
  | some _ => .ok (Scalar.ofInt n)
  | none => .error .overflow

/-- A known number as a scalar. -/
def ofNumber : Number α → Except EvalError α
  | .int n => ofInt n
  | .real x => .ok x

/-- Any value as an array of reals. -/
def toTensor : Value α → Except EvalError (Tensor α)
  | .number n => (ofNumber n).map Tensor.scalar
  | .word _ w => .ok (.scalar (Scalar.ofInt w.toInt))
  | .array _ t => .ok t
  | .object d => do
    return (← d.tensor).map Scalar.ofDouble

/-- A value without dimensions as a scalar; a text is read as a numeral. -/
def toScalar : Value α → Except EvalError α
  | .object (.text s) => (Datum.readText s).map Scalar.ofDouble
  | .object _ => .error .wrongKind
  | v => do
    match (← v.toTensor).scalar? with
    | some x => return x
    | none => throw .wrongKind

/-- A known integer as a scalar beside computed ones. -/
def scalarOfInt (rules : Rules) (n : Int) : Except EvalError α :=
  match rules with
  | .density => if Word.fitsSigned n then .ok (Scalar.ofInt n) else .error .overflow
  | .folding => ofInt n

/-- An object as an array: while constants are folded, a list counts as one. -/
def arrayOfObject (rules : Rules) (d : Datum) : Except EvalError (Tensor α) :=
  if rules = .folding ∧ d.isList then (Value.object d).toTensor else .error .wrongKind

/-- A value as an operand beside computed values. -/
def operand (rules : Rules) : Value α → Except EvalError (Tensor α)
  | .number (.int n) => (scalarOfInt rules n).map Tensor.scalar
  | .object (.text s) =>
    match rules with
    | .folding => .error .textOperand
    | .density => arrayOfObject rules (.text s)
  | .object d => arrayOfObject rules d
  | v => v.toTensor

/-- A value as the argument of a function of reals. While constants are folded, a known integer has
to be no larger than a word. -/
def argument (rules : Rules) : Value α → Except EvalError (Tensor α)
  | .number (.int n) =>
    if rules = .folding ∧ Word.ofInt? n = none then .error .wrongKind
    else (scalarOfInt rules n).map Tensor.scalar
  | .object d => arrayOfObject rules d
  | v => v.toTensor

/-- Combines two arrays entry by entry. Shapes that do not fit are refused. -/
def zip {β γ δ : Type} (rules : Rules) (f : β → γ → δ) (a : Tensor β) (b : Tensor γ) :
    Except EvalError (Tensor δ) :=
  match Tensor.zipWith? f a b with
  | some t => .ok t
  | none =>
    if rules = .density ∧ a.rank = b.rank then .error .wrongKind else .error .badValue

/-- Applies a function of reals to every entry. -/
def lift (rules : Rules) (f : α → α) (v : Value α) : Except EvalError (Value α) := do
  return .array rules ((← v.argument rules).map (rules.unary f))

/-- Stacks values into one array of a given shape, all entries converted to reals. -/
def block (rules : Rules) (vs : List (Value α)) (shape : List Nat) :
    Except EvalError (Value α) := do
  let ts ← vs.mapM toTensor
  match Tensor.stack? ts with
  | none => throw .badValue
  | some t =>
    match t.reshape? shape with
    | some r => return .array rules r
    | none => throw (if rules = .density then .wrongKind else .badValue)

end Value

end BayesGraph
