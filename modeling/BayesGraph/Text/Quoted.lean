import BayesGraph.Text.Printable

/-!
# Quoted text

Text inside error messages is quoted: with single quotes, unless it holds a single quote and no
double quote. The quote in use and the backslash are escaped, line breaks and tabs have short
escapes, and unprintable characters are written by their code in two, four or eight digits.
-/

set_option autoImplicit false

namespace BayesGraph.Text

/-- A number in base sixteen, padded with zeros to a width. -/
def hexadecimal (n width : Nat) : String :=
  let digits := Nat.toDigits 16 n
  String.ofList (List.replicate (width - digits.length) '0' ++ digits)

/-- One character of quoted text. -/
def escape (quote c : Char) : String :=
  if c == quote || c == '\\' then String.ofList ['\\', c]
  else if c == '\n' then "\\n"
  else if c == '\r' then "\\r"
  else if c == '\t' then "\\t"
  else if isPrintable c then String.singleton c
  else if c.toNat < 0x100 then "\\x" ++ hexadecimal c.toNat 2
  else if c.toNat < 0x10000 then "\\u" ++ hexadecimal c.toNat 4
  else "\\U" ++ hexadecimal c.toNat 8

/-- The text between quotes. -/
def quoted (s : String) : String :=
  let quote := if s.toList.contains '\'' && !s.toList.contains '"' then '"' else '\''
  String.singleton quote ++ String.join (s.toList.map (escape quote)) ++ String.singleton quote

/-- The lines of a text: what stands between its line breaks. -/
def lines (s : String) : List (List Char) := s.toList.splitOn '\n'

/-- The text that has these lines. -/
def unlines (ls : List (List Char)) : String := String.ofList (['\n'].intercalate ls)

/-- Every line of the text, the empty ones too, behind `n` blanks. -/
def indent (n : Nat) (s : String) : String :=
  unlines ((lines s).map (List.replicate n ' ' ++ ·))

/-- The text up to its first line break. -/
def firstLine (s : String) : String := String.ofList (s.toList.takeWhile (· != '\n'))

end BayesGraph.Text
