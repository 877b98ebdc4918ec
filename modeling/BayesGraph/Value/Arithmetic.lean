import BayesGraph.Value

/-!
# Arithmetic and comparison of values

Arithmetic on known integers is exact, arithmetic on words is that of words, and all other
arithmetic is that of scalars after a conversion that can overflow. Texts and lists can be joined
and repeated. Known numbers are compared exactly.
-/

set_option autoImplicit false

namespace BayesGraph

namespace Datum

/-- Two texts or two lists, one behind the other. -/
def append? : Datum → Datum → Option Datum
  | .text s, .text t => some (.text (s ++ t))
  | .list xs, .list ys => some (.list (xs ++ ys))
  | _, _ => none

/-- The length of a text or a list. -/
def length? : Datum → Option Nat
  | .text s => some s.length
  | .list xs => some xs.length
  | _ => none

/-- A text or a list, repeated; other objects stay as they are. -/
def replicate (count : Nat) : Datum → Datum
  | .text s => .text (String.join (List.replicate count s))
  | .list xs => .list (List.replicate count xs).flatten
  | d => d

end Datum

/-- The greatest length to which a text or a list is repeated. -/
def maxLength : Nat := 100000000

namespace Value

variable {α : Type} [Scalar α]

/-- An operation on reals, at least one of which is computed. -/
def combine (f : α → α → α) (x y : Value α) : Except EvalError (Value α) := do
  let rules := x.origin.join y.origin
  let a ← x.operand rules
  let b ← y.operand rules
  return .array rules (← zip rules (rules.binary f) a b)

/-- The result of an operation on a word and a known integer `n`, which has to fit the format of
the word. -/
def besideWord (rules : Rules) (w : Word) (n result : Int) : Except EvalError (Value α) :=
  if w.holds n then .ok (.word rules (w.like result)) else .error .overflow

/-- A sum, difference or product: `onInts` is the operation on integers, and `onReals` the one on
scalars. Words of two formats are reals together. -/
def arithmetic (onInts : Int → Int → Int) (onReals : α → α → α) (x y : Value α) :
    Except EvalError (Value α) :=
  match x, y with
  | .number (.int m), .number (.int n) => .ok (.int (onInts m n))
  | .number a, .number b => do
    let a ← ofNumber a
    let b ← ofNumber b
    return .real (onReals a b)
  | .word r w, .number (.int n) => besideWord r w n (onInts w.toInt n)
  | .number (.int n), .word r w => besideWord r w n (onInts n w.toInt)
  | .word r v, .word s w =>
    match v.combine? onInts w with
    | some u => .ok (.word (r.join s) u)
    | none => combine onReals (.word r v) (.word s w)
  | .object _, .object _ | .object _, .number _ | .number _, .object _ => .error .wrongKind
  | x, y => combine onReals x y

/-- A text or a list, repeated within reason. -/
def repeated (d : Datum) (count : Int) : Except EvalError (Value α) :=
  match d.length? with
  | none => .error .wrongKind
  | some n =>
    if Word.fitsSigned count ∧ n * count.toNat ≤ maxLength then
      .ok (.object (d.replicate count.toNat))
    else .error .overflow

/-- The sum. -/
def add (x y : Value α) : Except EvalError (Value α) :=
  match x, y with
  | .object a, .object b =>
    match a.append? b with
    | some d => .ok (.object d)
    | none => .error .wrongKind
  | x, y => arithmetic (· + ·) (· + ·) x y

/-- The difference. -/
def sub (x y : Value α) : Except EvalError (Value α) := arithmetic (· - ·) (· - ·) x y

/-- The product. -/
def mul (x y : Value α) : Except EvalError (Value α) :=
  match x, y, x.integer?, y.integer? with
  | .object d, _, _, some n | _, .object d, some n, _ => repeated d n
  | x, y, _, _ => arithmetic (· * ·) (· * ·) x y

/-- The sign reversed; an object without a sign stays as it is. -/
def neg : Value α → Value α
  | .number (.int n) => .int (-n)
  | .number (.real x) => .real (-x)
  | .word r w => .word r (w.like (-w.toInt))
  | .array r t => .array r (t.map (- ·))
  | .object d => .object d

/-- The sign reversed, which an object without a sign refuses. -/
def negate : Value α → Except EvalError (Value α)
  | .object _ => .error .wrongKind
  | v => .ok v.neg

/-- The quotient of integers, rounded at most once. -/
def quotientOfInts (m n : Int) : Except EvalError α :=
  if n = 0 then .error .zeroDivision
  else if (Double.ofQuotient m n).isFinite then .ok (Scalar.ofQuotient m n) else .error .overflow

/-- The quotient of known numbers, for which a zero divisor is an error. -/
def quotientOfNumbers : Number α → Number α → Except EvalError (Number α)
  | .int m, .int n => (quotientOfInts m n).map .real
  | a, b => do
    let x ← ofNumber a
    let y ← ofNumber b
    if Scalar.eq y (Scalar.ofInt 0) then throw .zeroDivision else return .real (x / y)

/-- The quotient as a function of reals: a zero divisor gives an infinity or no number. -/
def divide (rules : Rules) (x y : Value α) : Except EvalError (Value α) := do
  let a ← x.operand rules
  let b ← y.operand rules
  return .array rules (← zip rules (rules.binary (· / ·)) a b)

/-- The quotient as an operator: a zero divisor is an error if both operands are known. -/
def quotient (x y : Value α) : Except EvalError (Value α) :=
  match x, y with
  | .number a, .number b => (quotientOfNumbers a b).map .number
  | x, y => x.divide .density y

/-- A power with one exponent for all bases, for which one half stands for the square root. -/
def commonPower (x y : α) : α :=
  if Scalar.eq y (Scalar.ofInt 1 / Scalar.ofInt 2) then Scalar.sqrt x else Scalar.pow x y

/-- The base of a power as reals; an absent one is no number while constants are folded. -/
def base (rules : Rules) : Value α → Except EvalError (Tensor α)
  | .object .nothing =>
    if rules = .folding then .ok (.scalar Scalar.nan) else .error .wrongKind
  | v => v.toTensor

/-- The power of a base that is converted to a real first. An integral exponent means repeated
multiplication when a density is evaluated. -/
def power (rules : Rules) (x y : Value α) : Except EvalError (Value α) := do
  let a ← x.base rules
  match rules, y.integer? with
  | .density, some n => return .array .density (a.map fun t => Scalar.integralPower t n)
  | .density, none =>
    let b ← y.operand .density
    return .array .density (← zip .density (Rules.binary .density Scalar.pow) a b)
  | .folding, _ =>
    let b ← y.operand .folding
    let f : α → α → α := if b.entries.length = 1 then commonPower else Scalar.pow
    return .array .folding (← zip .folding f a b)

/-- Are two known numbers in this order? An integer and a real are compared exactly, by rounding
the real to an integer on the side away from the other. -/
def numbersLe : Number α → Number α → Bool
  | .int m, .int n => decide (m ≤ n)
  | .real x, .real y => Scalar.le x y
  | .int m, .real y =>
    match Scalar.toInt? (Scalar.floor y) with
    | some n => decide (m ≤ n)
    | none => Scalar.lt (Scalar.ofInt 0) y
  | .real x, .int n =>
    match Scalar.toInt? (Scalar.floor (-x)) with
    | some m => decide (-m ≤ n)
    | none => Scalar.lt x (Scalar.ofInt 0)

/-- Are two known numbers equal? -/
def numbersEq (a b : Number α) : Bool := numbersLe a b && numbersLe b a

/-- Is the first known number smaller? -/
def numbersLt (a b : Number α) : Bool := numbersLe a b && !numbersLe b a

/-- Relates two values entry by entry. Integers are compared exactly, but beside a word of a density
they have to fit its format. -/
def relate (onNumbers : Number α → Number α → Bool) (onReals : α → α → Bool) (x y : Value α) :
    Except EvalError (Tensor Bool) :=
  let onInts (m n : Int) : Except EvalError (Tensor Bool) :=
    .ok (.scalar (onNumbers (.int m) (.int n)))
  match x, y with
  | .number a, .number b => .ok (.scalar (onNumbers a b))
  | .word _ v, .word _ w => onInts v.toInt w.toInt
  | .word r w, .number (.int n) =>
    if r = .density ∧ !w.holds n then .error .overflow else onInts w.toInt n
  | .number (.int n), .word r w =>
    if r = .density ∧ !w.holds n then .error .overflow else onInts n w.toInt
  | .object _, .object _ | .object _, .number _ | .number _, .object _ => .error .wrongKind
  | x, y => do
    let rules := x.origin.join y.origin
    let a ← x.operand rules
    let b ← y.operand rules
    zip rules (fun p q => onReals (rules.settle p) (rules.settle q)) a b

/-- One for true and zero for false, as a computed value. -/
def indicators (rules : Rules) (t : Tensor Bool) : Value α := .array rules (t.map Scalar.indicator)

/-- Is the first value at least the second one? -/
def atLeast (rules : Rules) (x y : Value α) : Except EvalError (Value α) :=
  (relate (fun a b => numbersLe b a) (fun a b => Scalar.le b a) x y).map (indicators rules)

/-- Is an object equal to a value that is no object? It never is, but a computed array is compared
entry by entry while constants are folded. -/
def equalsObject (d : Datum) (v : Value α) : Except EvalError (Tensor Bool) :=
  match v with
  | .array .folding t =>
    if d.isList then relate numbersEq Scalar.eq (.object d) v else .ok (t.map fun _ => false)
  | _ => .ok (.scalar false)

/-- Are two values equal? -/
def equals (rules : Rules) (x y : Value α) : Except EvalError (Value α) := do
  match x, y with
  | .object a, .object b => return indicators rules (.scalar (decide (a = b)))
  | .object d, v | v, .object d => return indicators rules (← equalsObject d v)
  | x, y => return indicators rules (← relate numbersEq Scalar.eq x y)

end Value

end BayesGraph
