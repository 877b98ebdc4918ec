/-!
# Words

Functions of integers compute with words, which are integers of 64 bits. A word has a sign, unless
it was made from an integer that is too large for a word with a sign. The arithmetic of words is
that of the integers modulo `2 ^ 64`.
-/

set_option autoImplicit false

namespace BayesGraph

/-- An integer of 64 bits, with or without a sign. -/
inductive Word where
  | signed (n : Int64)
  | unsigned (n : UInt64)
deriving DecidableEq

namespace Word

/-- The least integer that a word with a sign can not hold, `2 ^ 63`. -/
def signedEnd : Int := 9223372036854775808

/-- Can a word with a sign hold the integer? -/
def fitsSigned (n : Int) : Bool := decide (-signedEnd ≤ n) && decide (n < signedEnd)

/-- Can a word without a sign hold the integer? -/
def fitsUnsigned (n : Int) : Bool := decide (0 ≤ n) && decide (n < 2 * signedEnd)

/-- The integer that a word stands for. -/
def toInt : Word → Int
  | .signed n => n.toInt
  | .unsigned n => n.toNat

/-- The word with a sign for an integer that it can hold. -/
def signed? (n : Int) : Option Word :=
  if fitsSigned n then some (.signed (Int64.ofInt n)) else none

/-- The word for an integer, with a sign if such a word can hold it. -/
def ofInt? (n : Int) : Option Word :=
  if fitsSigned n then some (.signed (Int64.ofInt n))
  else if fitsUnsigned n then some (.unsigned (UInt64.ofInt n))
  else none

/-- Can a word of the same format hold the integer? -/
def holds : Word → Int → Bool
  | .signed _, n => fitsSigned n
  | .unsigned _, n => fitsUnsigned n

/-- The word of the same format that equals an integer modulo `2 ^ 64`. -/
def like : Word → Int → Word
  | .signed _, n => .signed (Int64.ofInt n)
  | .unsigned _, n => .unsigned (UInt64.ofInt n)

/-- Combines two words of one format. -/
def combine? (f : Int → Int → Int) (v w : Word) : Option Word :=
  match v, w with
  | .signed m, .signed n => some (.signed (Int64.ofInt (f m.toInt n.toInt)))
  | .unsigned m, .unsigned n => some (.unsigned (UInt64.ofInt (f m.toNat n.toNat)))
  | _, _ => none

end Word

end BayesGraph
