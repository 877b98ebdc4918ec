import BayesGraph.Double

/-!
# Decimal digits of doubles

Two ways to choose the digits of a finite, nonzero double: a fixed number of significant digits,
rounded to nearest with ties to even, and the fewest digits that read back as the same double.
The module also writes numbers in the three layouts that the library uses: `scientific` with a
fixed number of digits, `shortest` for error texts and lists, and plain integers.
-/

set_option autoImplicit false

namespace BayesGraph

/-- Significant digits as one number of `count` digits, with a point after the first of them and
a power of ten. -/
structure Decimal where
  digits : Nat
  count : Nat
  exponent : Int
deriving DecidableEq, Inhabited

namespace Decimal

/-- The power of ten of the leading digit of `num / den`, for positive arguments. -/
def order (num den : Nat) : Int :=
  if den ≤ num then ((Nat.toDigits 10 (num / den)).length : Int) - 1
  else
    match (List.range 400).find? (fun j => den ≤ num * Nat.pow 10 (j + 1)) with
    | some j => -((j : Int) + 1)
    | none => -400

/-- Numerator and denominator of `num / den` in units of `10 ^ e`. -/
def inUnits (num den : Nat) (e : Int) : Nat × Nat :=
  (num * Nat.pow 10 (-e).toNat, den * Nat.pow 10 e.toNat)

/-- `num / den` rounded to `count` significant digits, a tie to the even last digit. -/
def rounded (num den count : Nat) : Decimal :=
  let e := order num den
  let (a, b) := inUnits num den (e + 1 - count)
  let d := Double.roundQuotient a b
  if d = Nat.pow 10 count then ⟨Nat.pow 10 (count - 1), count, e + 1⟩ else ⟨d, count, e⟩

/-- Does `num / den` read back as the finite, nonzero double `x`? The reals that round to `x`
reach half a gap to each side, the ends included when the mantissa is even; below a power of two
the gap is half as wide. -/
def readsBack (x : Double) (num den : Nat) : Bool :=
  let m := x.mantissa
  let narrow := m = Nat.pow 2 52 ∧ 1 < x.biasedExponent
  let low := if narrow then 4 * m - 1 else 4 * m - 2
  let high := 4 * m + 2
  let shift := x.exponent - 2
  let value := num * Nat.pow 2 (-shift).toNat
  let unit := den * Nat.pow 2 shift.toNat
  if m % 2 = 0 then decide (low * unit ≤ value) && decide (value ≤ high * unit)
  else decide (low * unit < value) && decide (value < high * unit)

/-- A decimal as a quotient of natural numbers. -/
def quotient (d : Decimal) : Nat × Nat :=
  let e := d.exponent + 1 - d.count
  (d.digits * Nat.pow 10 e.toNat, Nat.pow 10 (-e).toNat)

/-- The two neighbours of the magnitude of `x` on the grid of `count` digits. -/
def neighbours (x : Double) (count : Nat) : Decimal × Decimal :=
  let e := order x.numerator x.denominator
  let (a, b) := inUnits x.numerator x.denominator (e + 1 - count)
  let d := a / b
  let above : Decimal :=
    if d + 1 = Nat.pow 10 count then ⟨Nat.pow 10 (count - 1), count, e + 1⟩
    else ⟨d + 1, count, e⟩
  (⟨d, count, e⟩, above)

/-- The neighbour that reads back; of two the nearer, and of two equally near the even one. -/
def readable? (x : Double) (count : Nat) : Option Decimal :=
  let (below, above) := neighbours x count
  let reads (d : Decimal) : Bool := readsBack x d.quotient.1 d.quotient.2
  match reads below, reads above with
  | true, true =>
    some (if rounded x.numerator x.denominator count = below then below else above)
  | true, false => some below
  | false, true => some above
  | false, false => none

/-- The fewest digits that read back as `x`, without trailing zeros. -/
def shortest (x : Double) : Decimal :=
  ((List.range 17).findSome? fun n => readable? x (n + 1)).getD
    (rounded x.numerator x.denominator 17)

/-- The significant digits as text. -/
def digitText (d : Decimal) : String := toString d.digits

end Decimal

namespace Double

/-- An integer with at least two digits and always a sign. -/
def exponentText (e : Int) : String :=
  let magnitude := toString e.natAbs
  let padded := if magnitude.length < 2 then "0" ++ magnitude else magnitude
  (if e < 0 then "-" else "+") ++ padded

/-- The first character, a point, and the remaining characters; no point when none remain. -/
def pointAfterFirst (text : String) : String :=
  match text.toList with
  | [] => ""
  | [c] => String.ofList [c]
  | c :: rest => String.ofList (c :: '.' :: rest)

/-- Scientific notation with `places` digits behind the point and the given exponent mark. -/
def scientific (x : Double) (places : Nat) (mark : String) : String :=
  if x.isNaN then "nan"
  else
    let sign := if x.isNegative then "-" else ""
    if x.isInfinite then sign ++ "inf"
    else
      let d : Decimal :=
        if x.isZero then ⟨0, places + 1, 0⟩
        else Decimal.rounded x.numerator x.denominator (places + 1)
      let digits := d.digitText
      let padded := String.ofList (List.replicate (places + 1 - digits.length) '0') ++ digits
      sign ++ pointAfterFirst padded ++ mark ++ exponentText d.exponent

/-- Digits of a decimal in positional notation, with at least one digit behind the point. -/
def positional (d : Decimal) : String :=
  let digits := d.digitText.toList
  if d.exponent < 0 then
    "0." ++ String.ofList (List.replicate (-d.exponent - 1).toNat '0' ++ digits)
  else
    let whole := d.exponent.toNat + 1
    let padded := digits ++ List.replicate (whole - digits.length) '0'
    let rest := padded.drop whole
    String.ofList (padded.take whole) ++ "." ++ (if rest.isEmpty then "0" else String.ofList rest)

/-- The shortest text that reads back: positional from `10 ^ -4` up to `10 ^ 16`, and
scientific elsewhere. -/
def shortest (x : Double) : String :=
  if x.isNaN then "nan"
  else
    let sign := if x.isNegative then "-" else ""
    if x.isInfinite then sign ++ "inf"
    else if x.isZero then sign ++ "0.0"
    else
      let d := Decimal.shortest x
      if -4 ≤ d.exponent ∧ d.exponent < 16 then sign ++ positional d
      else sign ++ pointAfterFirst d.digitText ++ "e" ++ exponentText d.exponent

end Double

end BayesGraph
