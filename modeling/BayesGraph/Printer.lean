import BayesGraph.Error
import BayesGraph.Text.Blank

/-!
# Printing models

The written form of expressions and statements. Operators have four levels of binding strength,
and an operand that binds weaker than its place requires stands in parentheses. Trees that were
never validated may hold plain objects, for which there is no written form.
-/

set_option autoImplicit false

namespace BayesGraph

namespace Datum

/-- All occurrences of a two-character pattern followed by `0` lose the part that follows the
first `keep` characters. -/
def dropPadding : List Char → List Char
  | 'E' :: '-' :: '0' :: rest => 'E' :: '-' :: dropPadding rest
  | 'E' :: '+' :: '0' :: rest => 'E' :: dropPadding rest
  | c :: rest => c :: dropPadding rest
  | [] => []

/-- A real number as it is written in a model: in scientific notation with two digits from `1e5`
up and below `1e-3`, with the shortest digits in between. -/
def realText (x : Double) : String :=
  if x.magnitudeAtLeast 100000 1 || (!x.isZero && !x.isNaN && !x.magnitudeAtLeast 1 1000) then
    if x.isInfinite then (if x.isNegative then "-INF" else "INF")
    else String.ofList (dropPadding (x.scientific 1 "E").toList)
  else x.shortest

/-- A literal as it is written in a model. -/
def literalText : Datum → String
  | .real x => realText x
  | d => d.shown

end Datum

namespace Expr

/-- How strongly the outermost operator binds: `+ -` 1, `* /` 2, unary minus and negative
literals 3, powers 4, all else 5. -/
def precedence : Expr → Except Malformed Nat
  | .add _ _ | .sub _ _ => .ok 1
  | .mul _ _ | .div _ _ => .ok 2
  | .negate _ => .ok 3
  | .pow _ _ => .ok 4
  | .literal val =>
    match val.isNegative? with
    | some true => .ok 3
    | some false => .ok 5
    | none => .error .wrongKind
  | _ => .ok 5

/-- A name as an item of a comma-separated list has to be text. -/
def requireText : Expr → Except Malformed Unit
  | .var name => if name.text?.isSome then .ok () else .error .wrongKind
  | _ => .ok ()

/-- Parentheses around an operand that binds weaker than `least`. -/
def parenthesized (e : Expr) (text : String) (least : Nat) : Except Malformed String := do
  if (← e.precedence) < least then return "(" ++ text ++ ")" else return text

mutual

/-- The expression as it is written in a model. -/
def print : Expr → Except Malformed String
  | .literal val => return val.literalText
  | .var name => return name.shown
  | .colon => return ""
  | .range start stop => return (← print start) ++ ":" ++ (← print stop)
  | .index name indices =>
    return name.shown ++ "[" ++ ", ".intercalate (← printAll indices) ++ "]"
  | .ref id => return id.text
  | .refArray ids _ => return "\x7b" ++ ", ".intercalate (ids.map Identity.text) ++ "\x7d"
  | .negate val => do
    return "-" ++ (← parenthesized val (← print val) 4)
  | .add left right => do
    let l ← parenthesized left (← print left) 1
    let r ← parenthesized right (← print right) 1
    return l ++ " + " ++ r
  | .sub left right => do
    let l ← parenthesized left (← print left) 1
    let r ← parenthesized right (← print right) 2
    return l ++ " - " ++ r
  | .mul left right => do
    let l ← parenthesized left (← print left) 2
    let r ← parenthesized right (← print right) 2
    return l ++ " * " ++ r
  | .div num den => do
    let l ← parenthesized num (← print num) 2
    let r ← parenthesized den (← print den) 3
    return l ++ " / " ++ r
  | .pow base exponent => do
    let l ← parenthesized base (← print base) 5
    let r ← parenthesized exponent (← print exponent) 4
    return l ++ "^" ++ r
  | .call func arguments =>
    return func.shown ++ "(" ++ ", ".intercalate (← printAll arguments) ++ ")"
  | .raw object => .error (.unprintable object.shown)
  | .rawList items => .error (.unprintable (describe (.rawList items)))

/-- The items of a comma-separated list. -/
def printAll : List Expr → Except Malformed (List String)
  | [] => return []
  | e :: rest => do
    let text ← print e
    let texts ← printAll rest
    requireText e
    return text :: texts

end

end Expr

namespace Dist

/-- A truncation bound as it is written; an absent one is empty. -/
def printBound : Option Expr → Except Malformed String
  | none => return ""
  | some e => e.print

/-- The distribution as it is written in a model. -/
def print (d : Dist) : Except Malformed String := do
  let head := d.name.shown ++ "(" ++ ", ".intercalate (← Expr.printAll d.params) ++ ")"
  if d.truncated then
    let lower ← printBound d.lower
    let upper ← printBound d.upper
    return head ++ " T(" ++ lower ++ ", " ++ upper ++ ")"
  else return head

end Dist

/-- The right of a stochastic statement as it is written. -/
def Law.print : Law → Except Malformed String
  | .dist d => d.print
  | .raw _ => .error .missingPart

namespace Stmt

/-- Comments behind a statement. -/
def commentText (comment : List String) : String := String.join (comment.map (" # " ++ ·))

mutual

/-- The statement as it is written in a model, with loop bodies indented by `depth` blanks. -/
def print (depth : Nat) : Stmt → Except Malformed String
  | .sample comment lhs law => do
    let left ← lhs.print
    let right ← law.print
    return left ++ " ~ " ++ right ++ commentText comment
  | .assign comment lhs rhs => do
    let left ← lhs.print
    let right ← rhs.print
    return left ++ " <- " ++ right ++ commentText comment
  | .loop comment var sequence body => do
    let lines ← printAll depth body
    let range ← sequence.print
    return "for ( " ++ var.shown ++ " in " ++ range ++ " ) \x7b\n"
      ++ Text.indent depth ("\n".intercalate lines) ++ "\n\x7d" ++ commentText comment
  | .raw object => .error (.unprintableStatement object.qualifiedKind)

/-- The statements of a list as they are written. -/
def printAll (depth : Nat) : List Stmt → Except Malformed (List String)
  | [] => return []
  | s :: rest => do
    let text ← print depth s
    let texts ← printAll depth rest
    return text :: texts

end

/-- The first line of the written statement, or the full description of one that has no written
form. -/
def headline (s : Stmt) : String :=
  match print 4 s with
  | .ok text => Text.firstLine (String.ofList (Text.trim text.toList))
  | .error _ => s.describe

end Stmt

/-- The model as it is written. -/
def Model.print (m : Model) : Except Malformed String := do
  let lines ← Stmt.printAll 4 m.statements
  return "model \x7b\n" ++ Text.indent 4 ("\n".intercalate lines) ++ "\n\x7d"

end BayesGraph
