import BayesGraph.Double
import BayesGraph.Text.Blank

/-!
# Reading decimal numerals

The texts that denote a double: an optional sign, digits with an optional point and exponent, or
a name of infinity or NaN in any case. White space around the numeral is ignored, and a single
underscore may stand between two digits. The value is rounded once, from the exact decimal.
-/

set_option autoImplicit false

namespace BayesGraph.Numeral

/-- The value of a decimal digit. -/
def digit? (c : Char) : Option Nat := if c.isDigit then some (c.toNat - 48) else none

/-- The digits at the front, an underscore between two of them skipped, and the rest. -/
def takeDigits : List Char → List Nat × List Char
  | [] => ([], [])
  | c :: '_' :: d :: rest =>
    match digit? c, digit? d with
    | some n, some _ => let (ns, tail) := takeDigits (d :: rest); (n :: ns, tail)
    | some n, none => ([n], '_' :: d :: rest)
    | none, _ => ([], c :: '_' :: d :: rest)
  | c :: rest =>
    match digit? c with
    | some n => let (ns, tail) := takeDigits rest; (n :: ns, tail)
    | none => ([], c :: rest)

/-- The number with the given decimal digits. -/
def ofDigits (ds : List Nat) : Nat := ds.foldl (fun n d => 10 * n + d) 0

/-- A sign at the front: `true` for minus. -/
def takeSign : List Char → Bool × List Char
  | '+' :: rest => (false, rest)
  | '-' :: rest => (true, rest)
  | s => (false, s)

/-- The exponent part, which has to be the whole text; an empty text is the exponent zero. -/
def exponent? : List Char → Option Int
  | [] => some 0
  | c :: rest =>
    if c == 'e' || c == 'E' then
      let (negative, body) := takeSign rest
      match takeDigits body with
      | ([], _) => none
      | (ds, []) => some (if negative then -(ofDigits ds : Int) else ofDigits ds)
      | _ => none
    else none

/-- The double nearest to `digits * 10 ^ e`. Exponents far out of range are decided without
computing the power. -/
def scale (negative : Bool) (digits : Nat) (e : Int) : Double :=
  let order : Int := (Nat.toDigits 10 digits).length + e
  if digits = 0 || order < -330 then Double.nearest negative 0 1
  else if 310 < order then Double.ofParts negative (Nat.pow 2 52) 972
  else Double.nearest negative (digits * Nat.pow 10 e.toNat) (Nat.pow 10 (-e).toNat)

/-- Digits, point, digits and exponent; at least one digit is required. -/
def decimal? (negative : Bool) (s : List Char) : Option Double :=
  let (whole, rest) := takeDigits s
  let (part, rest) :=
    match rest with
    | '.' :: more => takeDigits more
    | _ => ([], rest)
  if whole.isEmpty && part.isEmpty then none
  else
    (exponent? rest).map fun e =>
      scale negative (ofDigits (whole ++ part)) (e - part.length)

/-- The double that a text denotes. -/
def read? (text : String) : Option Double :=
  let (negative, body) := takeSign (Text.trim text.toList)
  let name := String.ofList (body.map Char.toLower)
  if name = "inf" || name = "infinity" then some (Double.ofParts negative (Nat.pow 2 52) 972)
  else if name = "nan" then some Double.nan
  else decimal? negative body

end BayesGraph.Numeral
