import BayesGraph.Builtin.Reduction

/-!
# Rounding to decimals

A value is rounded to the nearest integer, or to a number of decimals, which is negative for tens,
hundreds and so on. A half goes to the even neighbour. The scaled value is rounded, so that the
result is as exact as the two scalings are.
-/

set_option autoImplicit false

namespace BayesGraph.Builtin

variable {α : Type} [Scalar α]

/-- A power of ten; from `10 ^ 309` up it is infinite. -/
def powerOfTen (k : Nat) : Double := if 308 < k then Double.infinity else Double.ofInt (Nat.pow 10 k)

/-- One over a power of ten. -/
def powerOfTenth (k : Nat) : Double :=
  if 400 < k then Double.zero else Double.nearest false 1 (Nat.pow 10 k)

/-- Rounds a real while constants are folded: negative decimals divide first. -/
def roundFolded (decimals : Int) (x : α) : α :=
  let scale : α := Scalar.ofDouble (powerOfTen decimals.natAbs)
  if decimals = 0 then Scalar.round x
  else if decimals < 0 then Scalar.round (x / scale) * scale
  else Scalar.round (x * scale) / scale

/-- Rounds a real of a density: the scale is a power of ten with any exponent. -/
def roundDense (decimals : Int) (x : α) : Except EvalError α :=
  let scaled (scale : Double) : α :=
    let s : α := Scalar.flush (Scalar.ofDouble scale)
    Scalar.flush (Scalar.round (Scalar.flushedProduct x s)) / s
  if decimals = 0 then .ok (Scalar.round x)
  else if decimals < 0 then .ok (scaled (powerOfTenth decimals.natAbs))
  else if 308 < decimals then .error .overflow
  else .ok (scaled (powerOfTen decimals.natAbs))

/-- The number of decimals. A density needs to know it in advance. -/
def decimalsOf (rules : Rules) : Value α → Except EvalError Int
  | .number (.int n) => if n.natAbs < 2147483648 then .ok n else .error .overflow
  | .word .folding w => .ok w.toInt
  | .word .density _ => .error .badValue
  | .array _ _ => .error (match rules with | .folding => .wrongKind | .density => .badValue)
  | _ => .error .wrongKind

/-- A word that is rounded to tens, hundreds and so on, by way of reals; what is no integer in the
end is `-2 ^ 63`. -/
def roundWord (decimals : Int) (w : Word) : Word :=
  if 0 ≤ decimals then w
  else
    let x := roundFolded decimals (Scalar.ofInt w.toInt : α)
    w.like ((Scalar.toInt? x).getD (-Word.signedEnd))

/-- Rounds a value to a number of decimals. -/
def roundValue (rules : Rules) (decimals : Int) (x : Value α) : Except EvalError (Value α) := do
  match rules, ← computed rules x with
  | .folding, .word _ w => return .word .folding (roundWord (α := α) decimals w)
  | .folding, .array _ t => return .array .folding (t.map (roundFolded decimals))
  | .density, .word r w => if 0 ≤ decimals then return .word r w else throw .unsupported
  | .density, .array _ t =>
    let rounded ← t.mapM fun e => roundDense decimals (Scalar.flush e)
    return .array .density (rounded.map Scalar.flush)
  | _, _ => throw .wrongKind

/-- Stores a rounded value; the place has to have as many entries as the value. -/
def storeRounded (rules : Rules) (place result : Value α) : Except EvalError (Value α) :=
  match rules, place with
  | .density, .object .nothing => .ok result
  | .density, _ => .error .unsupported
  | .folding, .array .folding t =>
    if Tensor.volume t.shape = Tensor.volume result.shape then store .folding place result
    else .error .badValue
  | .folding, _ => store .folding place result

/-- Rounding, with the number of decimals as an optional second argument and a place for the result
as a third one. -/
def rounding (rules : Rules) : Operation α
  | _, [x] => roundValue (rules.join x.origin) 0 x
  | _, [x, decimals] => do
    let rules := rules.join x.origin
    roundValue rules (← decimalsOf rules decimals) x
  | _, [x, decimals, place] => do
    let rules := rules.join x.origin
    storeRounded rules place (← roundValue rules (← decimalsOf rules decimals) x)
  | _, _ => .error .wrongKind

end BayesGraph.Builtin
