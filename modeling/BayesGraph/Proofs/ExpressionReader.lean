import Mathlib.Algebra.Field.Basic
import Mathlib.Data.Rat.Cast.Defs
import BayesGraph.Names

/-!
# Reading expressions

A reader for the text of expressions. The text is cut into names, numerals and symbols, and the
symbols are resolved with a stack of what still waits for an operand. `^` is right-associative and
binds tightest, then unary minus, then `*` and `/`, then `+` and `-`, which associate to the left.
The colon of a range is loosest, and it stands between brackets only, as an empty slot does.

What an expression means is given by an interpretation of variables, indices, calls and powers over
a field. The four other operations and the numbers have their usual meaning.
-/

set_option autoImplicit false

namespace BayesGraph

/-- A name, a number, or a symbol with a meaning of its own. -/
inductive Token where
  | name (s : String)
  | number (d : Datum)
  | symbol (c : Char)

namespace Token

/-- Does a character continue a word? Words are names and numerals. The exponent of a numeral may
have a sign, and a line break directly behind a name belongs to it (`Names.isIdentifier`). -/
def continues (word : List Char) (c : Char) : Bool :=
  Names.isNameChar c ||
    match word with
    | [] => false
    | first :: _ =>
      if first.isDigit then (c == '+' || c == '-') && word.getLast? == some 'E' else c == '\n'

/-- The token of a word, if there is a word. What starts with a digit has to be a numeral. -/
def ofWord (numeral : String → Option Datum) (word : List Char) : Option (List Token) :=
  match word with
  | [] => some []
  | first :: _ =>
    if first.isDigit then (numeral (String.ofList word)).map fun d => [number d]
    else if Names.isIdentifier (String.ofList word) then some [name (String.ofList word)]
    else none

/-- The tokens of a text behind the beginning of a word. -/
def scan (numeral : String → Option Datum) (word : List Char) : List Char → Option (List Token)
  | [] => ofWord numeral word
  | c :: rest =>
    if continues word c then scan numeral (word ++ [c]) rest
    else do
      let before ← ofWord numeral word
      let behind ← scan numeral [] rest
      return before ++ if c = ' ' then behind else symbol c :: behind

end Token

/-- A binary operator. -/
inductive Operator where
  | add
  | sub
  | mul
  | div
  | pow
deriving DecidableEq

namespace Operator

/-- The symbol of the operator. -/
def symbol : Operator → Char
  | add => '+'
  | sub => '-'
  | mul => '*'
  | div => '/'
  | pow => '^'

/-- The operator that is written with a symbol. -/
def ofSymbol? : Char → Option Operator
  | '+' => some add
  | '-' => some sub
  | '*' => some mul
  | '/' => some div
  | '^' => some pow
  | _ => none

/-- How strongly the operator binds. -/
def strength : Operator → Nat
  | add | sub => 1
  | mul | div => 2
  | pow => 4

/-- How strongly an operand on the left has to bind. Powers associate to the right. -/
def left : Operator → Nat
  | add | sub => 1
  | mul | div => 2
  | pow => 5

/-- How strongly an operand on the right has to bind. -/
def right : Operator → Nat
  | add => 1
  | sub | mul => 2
  | div => 3
  | pow => 4

/-- The operation on two expressions. -/
def apply : Operator → Expr → Expr → Expr
  | add => .add
  | sub => .sub
  | mul => .mul
  | div => .div
  | pow => .pow

end Operator

/-- The brackets around a list: a call has arguments, an indexed array has slots. -/
inductive Bracket where
  | call
  | index

namespace Bracket

/-- The symbol that ends the list. -/
def closing : Bracket → Char
  | call => ')'
  | index => ']'

/-- The expression that the list makes with the name before it. -/
def make : Bracket → String → List Expr → Expr
  | call, name, items => .call (.text name) items
  | index, name, items => .index (.text name) items

end Bracket

/-- What waits for an operand, or for the end of a bracket. -/
inductive Waiting where
  /-- An operator, with its left operand. -/
  | operation (left : Expr) (op : Operator)
  /-- A unary minus. -/
  | negation
  /-- An opening parenthesis. -/
  | group
  /-- A list behind a name, with the items that are complete. -/
  | items (bracket : Bracket) (name : String) (before : List Expr)
  /-- A range as an index slot, of which the start is complete. -/
  | range (name : String) (before : List Expr) (start : Expr)

namespace Waiting

/-- How strongly it holds its operand; brackets do not. -/
def strength : Waiting → Nat
  | operation _ op => op.strength
  | negation => 3
  | _ => 0

/-- Gives an operand to everything on the stack that binds at least as strongly as `least`. -/
def finish (least : Nat) : List Waiting → Expr → List Waiting × Expr
  | operation l op :: stack, e =>
    if least ≤ op.strength then finish least stack (op.apply l e) else (operation l op :: stack, e)
  | negation :: stack, e =>
    if least ≤ 3 then finish least stack (.negate e) else (negation :: stack, e)
  | stack, e => (stack, e)

/-- What a symbol does with a complete operand: it ends the bracket, with the expression that the
bracket makes, or it asks for a further operand. -/
def close : Char → List Waiting × Expr → Option (List Waiting × Option Expr)
  | ')', (group :: stack, e) => some (stack, some e)
  | ')', (items .call name before :: stack, e) =>
    some (stack, some (Bracket.call.make name (before ++ [e])))
  | ']', (items .index name before :: stack, e) =>
    some (stack, some (Bracket.index.make name (before ++ [e])))
  | ']', (range name before start :: stack, e) =>
    some (stack, some (Bracket.index.make name (before ++ [.range start e])))
  | ',', (items bracket name before :: stack, e) =>
    some (items bracket name (before ++ [e]) :: stack, none)
  | ',', (range name before start :: stack, e) =>
    some (items .index name (before ++ [.range start e]) :: stack, none)
  | ':', (items .index name before :: stack, e) => some (range name before e :: stack, none)
  | _, _ => none

end Waiting

namespace Expr

open Waiting Token

mutual

/-- Reads on where an operand has to follow. Between brackets a slot may be empty, and a call may
have no arguments. -/
def readOperand (stack : List Waiting) : List Token → Option Expr
  | .number d :: rest => readOperator stack (.literal d) rest
  | .name func :: .symbol '(' :: rest => readOperand (.items .call func [] :: stack) rest
  | .name array :: .symbol '[' :: rest => readOperand (.items .index array [] :: stack) rest
  | .name s :: rest => readOperator stack (.var (.text s)) rest
  | .symbol '-' :: rest => readOperand (.negation :: stack) rest
  | .symbol '(' :: rest => readOperand (.group :: stack) rest
  | .symbol ')' :: rest =>
    match stack with
    | .items .call func [] :: stack => readOperator stack (Bracket.call.make func []) rest
    | _ => none
  | .symbol ',' :: rest =>
    match stack with
    | .items .index array before :: stack =>
      readOperand (.items .index array (before ++ [.colon]) :: stack) rest
    | _ => none
  | .symbol ']' :: rest =>
    match stack with
    | .items .index array before :: stack =>
      readOperator stack (Bracket.index.make array (before ++ [.colon])) rest
    | _ => none
  | _ => none

/-- Reads on behind an operand. -/
def readOperator (stack : List Waiting) (e : Expr) : List Token → Option Expr
  | [] =>
    match finish 1 stack e with
    | ([], e) => some e
    | _ => none
  | .symbol c :: rest =>
    match Operator.ofSymbol? c with
    | some op =>
      let finished := finish op.left stack e
      readOperand (.operation finished.2 op :: finished.1) rest
    | none =>
      match close c (finish 1 stack e) with
      | some (stack, some e) => readOperator stack e rest
      | some (stack, none) => readOperand stack rest
      | none => none
  | _ => none

end

/-- The expression with the given text. The meaning of unsigned numerals is left to `numeral`. -/
def read? (numeral : String → Option Datum) (text : String) : Option Expr :=
  (scan numeral [] text.toList).bind (readOperand [])

end Expr

/-! ## Meaning -/

/-- The rational number that a number is; what is not a number counts as zero. -/
def Datum.rational : Datum → ℚ
  | .int n => n
  | .real x => (if x.isNegative then -1 else 1) * (x.numerator / x.denominator)
  | _ => 0

/-- What an index slot selects. -/
inductive SlotValue (K : Type) where
  | whole
  | span (start stop : K)
  | single (position : K)

/-- What the names and the powers of expressions stand for. -/
structure Interpretation (K : Type) where
  var : Datum → K
  index : Datum → List (SlotValue K) → K
  call : Datum → List K → K
  power : K → K → K

namespace Expr

section

variable {K : Type} [Field K] (I : Interpretation K)

mutual

/-- The value of an expression. Slices and plain objects have no value of their own; it counts as
zero. -/
def value : Expr → K
  | .literal d => d.rational
  | .var name => I.var name
  | .index name indices => I.index name (slotsOfAll indices)
  | .negate e => -value e
  | .add a b => value a + value b
  | .sub a b => value a - value b
  | .mul a b => value a * value b
  | .div a b => value a / value b
  | .pow a b => I.power (value a) (value b)
  | .call func arguments => I.call func (valuesOfAll arguments)
  | .colon | .range _ _ | .ref _ | .refArray _ _ | .raw _ | .rawList _ => 0

/-- The values of the expressions of a list. -/
def valuesOfAll : List Expr → List K
  | [] => []
  | e :: rest => value e :: valuesOfAll rest

/-- What the expressions of a list select as index slots. -/
def slotsOfAll : List Expr → List (SlotValue K)
  | [] => []
  | .colon :: rest => .whole :: slotsOfAll rest
  | .range a b :: rest => .span (value a) (value b) :: slotsOfAll rest
  | e :: rest => .single (value e) :: slotsOfAll rest

end

/-- What an expression selects as an index slot. -/
def slot : Expr → SlotValue K
  | .colon => .whole
  | .range a b => .span (value I a) (value I b)
  | e => .single (value I e)

end

end Expr

end BayesGraph
