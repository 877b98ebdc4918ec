import BayesGraph.Callable
import BayesGraph.Value.Arithmetic

/-!
# Functions of whole arrays

Sums, products, means and extremes reduce an array to one value, or along one of its dimensions.
Integers stay integers where the result is integral. A value that was computed under the rules of
the density is reduced under these rules.
-/

set_option autoImplicit false

namespace BayesGraph.Builtin

variable {α : Type} [Scalar α]

/-- A known integer as an integer that a function computes with. While constants are folded,
integers beyond words are computed with exactly. -/
def computedInt (rules : Rules) (n : Int) : Except EvalError (Value α) :=
  match rules with
  | .density =>
    match Word.signed? n with
    | some w => .ok (.word .density w)
    | none => .error .overflow
  | .folding =>
    match Word.ofInt? n with
    | some w => .ok (.word .folding w)
    | none => .ok (.int n)

/-- A value as a computed one. -/
def computed (rules : Rules) : Value α → Except EvalError (Value α)
  | .number (.int n) => computedInt rules n
  | .number (.real x) => .ok (.array rules (.scalar x))
  | .object d => do
    return .array rules (← Value.arrayOfObject rules d)
  | v => .ok (v.under rules)

/-- The error for a dimension that a value does not have. -/
def axisError : Rules → EvalError
  | .folding => .badAxis
  | .density => .badValue

/-- A dimension among `rank` ones, counted from the last one if it is negative. -/
def dimension (rules : Rules) (rank : Nat) (axis : Int) : Except EvalError (Fin rank) :=
  let k := if axis < 0 then axis + rank else axis
  if h : 0 ≤ k ∧ k < rank then .ok ⟨k.toNat, by omega⟩ else .error (axisError rules)

/-- The number of a dimension; nothing stands for all dimensions. -/
def axis? : Value α → Except EvalError (Option Int)
  | .object .nothing => .ok none
  | v =>
    match v.integer? with
    | some k => .ok (some k)
    | none => .error .wrongKind

/-- Reduces a list of scalars to one under the rules, which do not touch a single scalar. -/
def settled (rules : Rules) (f : List α → α) : List α → α
  | [x] => f [x]
  | xs => rules.settle (f (xs.map rules.settle))

/-- Reduces all entries of an array, or those along one dimension. -/
def reduceTensor (rules : Rules) (f : List α → α) (axis : Option Int) (t : Tensor α) :
    Except EvalError (Value α) := do
  match axis with
  | none => return .array rules (.scalar (settled rules f t.entries))
  | some axis =>
    let k ← dimension rules t.rank axis
    return .array rules (t.reduce (settled rules f) k)

/-- Do these rules see the first or last dimension of a value without dimensions as the whole? -/
def spansAll (rules : Rules) (axis : Option Int) : Bool :=
  match rules, axis with
  | _, none => true
  | .folding, some k => k = 0 || k = -1
  | .density, some _ => false

/-- Reduces a value; an integer is its own result, and while constants are folded, so is nothing. -/
def reduceValue (rules : Rules) (f : List α → α) (axis : Option Int) (x : Value α) :
    Except EvalError (Value α) := do
  let rules := rules.join x.origin
  match rules, x with
  | .folding, .object .nothing => return x
  | _, _ =>
    match ← computed rules x with
    | .array _ t =>
      if t.rank = 0 ∧ spansAll rules axis then reduceTensor rules f none t
      else reduceTensor rules f axis t
    | v => if spansAll rules axis then return v else throw (axisError rules)

/-- A reduction that is called with a value, the number of a dimension, and up to two further
options. What comes after the value may be absent, and the options have to be. -/
def withAxis (f : Option Int → Value α → Except EvalError (Value α)) : Operation α
  | _, [] => .error .wrongKind
  | _, [x] => f none x
  | _, x :: axis :: options => do
    let k ← axis? axis
    if options.length ≤ 2 ∧ options.all Value.isNothing then f k x else throw .wrongKind

/-- A reduction that keeps integers integral. -/
def reduction (rules : Rules) (f : List α → α) : Operation α := withAxis (reduceValue rules f)

/-- A reduction that turns integers into reals first. -/
def realReduction (rules : Rules) (f : List α → α) (axis : Option Int) (x : Value α) :
    Except EvalError (Value α) := do
  let rules := rules.join x.origin
  match x with
  | .object d => reduceTensor rules f axis (← Value.arrayOfObject rules d)
  | x => reduceTensor rules f axis (← x.operand rules)

/-- The arithmetic mean. -/
def mean (rules : Rules) : Operation α := withAxis (realReduction rules Scalar.mean)

/-- The standard deviation of all entries. -/
def deviation (rules : Rules) : Operation α
  | _, [x] => realReduction rules Scalar.deviation none x
  | _, _ => .error .wrongKind

/-- An operation on two values entry by entry. Two integers are words together. -/
def pairwise (rules : Rules) (onInts : Int → Int → Int) (onReals : α → α → α) (x y : Value α) :
    Except EvalError (Value α) := do
  let word (n : Int) : Except EvalError (Value α) :=
    match Word.signed? n with
    | some w => .ok (.word rules w)
    | none => .error .overflow
  if rules = .folding ∧ (x.isText ∨ y.isText) then throw .textOperand
  match rules, x, y with
  | .folding, .number (.int m), .number (.int n) =>
    Value.arithmetic onInts onReals (← word m) (← word n)
  | .folding, .number (.int m), y =>
    Value.arithmetic onInts onReals (.int m) (← computed .folding y)
  | .folding, x, .number (.int n) =>
    Value.arithmetic onInts onReals (← computed .folding x) (.int n)
  | rules, x, y =>
    let x ← computed rules x
    let y ← computed rules y
    Value.arithmetic onInts onReals x y

/-- The sum of the products of two arrays. -/
def innerProduct (rules : Rules) : Operation α
  | _, [x, y] => do
    reduceValue rules Scalar.sum none (← pairwise rules (· * ·) (· * ·) x y)
  | _, _ => .error .wrongKind

/-- The result of a function, stored in an array that is given for it and that has its shape, or
one to which the result is broadcast. Only folding knows such a place. -/
def store (rules : Rules) (place result : Value α) : Except EvalError (Value α) :=
  match rules, place, result with
  | .folding, .object .nothing, v => .ok v
  | .folding, .array .folding t, .array _ r => fit t.shape r
  | .folding, .array .folding t, .word _ w => fit t.shape (.scalar (Scalar.ofInt w.toInt))
  | _, _, _ => .error .wrongKind
where
  /-- Broadcasts a result to a shape. -/
  fit (shape : List Nat) (r : Tensor α) : Except EvalError (Value α) :=
    if shape.isEmpty then .error .wrongKind
    else
      match r.broadcast? shape with
      | some t => .ok (.array .folding t)
      | none => .error .badValue

/-- The extreme one of the entries of an array, or of two values. -/
def extreme (rules : Rules) (onInts : Int → Int → Int) (onReals : α → α → α)
    (onList : List α → α) : Operation α
  | _, [x] => reduceValue rules onList none x
  | _, [x, y] => pairwise rules onInts onReals x y
  | _, [x, y, place] => do store rules place (← pairwise rules onInts onReals x y)
  | _, _ => .error .wrongKind

/-- The largest entry of a list. -/
def maximum (xs : List α) : α :=
  match xs with
  | [] => Scalar.nan
  | x :: rest => Scalar.extreme (fun a b => Scalar.lt b a) x rest

/-- The smallest entry of a list. -/
def minimum (xs : List α) : α :=
  match xs with
  | [] => Scalar.nan
  | x :: rest => Scalar.extreme Scalar.lt x rest

end BayesGraph.Builtin
