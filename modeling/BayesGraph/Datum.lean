import BayesGraph.Decimal
import BayesGraph.Text.Quoted

/-!
# Uninterpreted data

What a model description contains before anything is checked: numbers, texts and other plain
objects may stand wherever a name, a literal or an expression belongs. Checks refuse them there,
and `describe` is how the refusal shows them.
-/

set_option autoImplicit false

namespace BayesGraph

/-- A plain object. -/
inductive Datum where
  | int (n : Int)
  | real (x : Double)
  | text (s : String)
  | truth (b : Bool)
  | nothing
  | list (items : List Datum)
  | record (fields : List (String × Datum))
deriving Inhabited

namespace Datum

mutual

/-- Equality of objects is decidable. -/
def decEq (a b : Datum) : Decidable (a = b) :=
  match a, b with
  | .int m, .int n => decidable_of_iff (m = n) (by simp)
  | .real x, .real y => decidable_of_iff (x = y) (by simp)
  | .text s, .text t => decidable_of_iff (s = t) (by simp)
  | .truth p, .truth q => decidable_of_iff (p = q) (by simp)
  | .nothing, .nothing => isTrue rfl
  | .list xs, .list ys =>
    match decEqAll xs ys with
    | isTrue h => isTrue (by rw [h])
    | isFalse h => isFalse (by simpa using h)
  | .record fs, .record gs =>
    match decEqFields fs gs with
    | isTrue h => isTrue (by rw [h])
    | isFalse h => isFalse (by simpa using h)
  | .int _, .real _ | .int _, .text _ | .int _, .truth _ | .int _, .nothing | .int _, .list _
  | .int _, .record _ | .real _, .int _ | .real _, .text _ | .real _, .truth _
  | .real _, .nothing | .real _, .list _ | .real _, .record _ | .text _, .int _
  | .text _, .real _ | .text _, .truth _ | .text _, .nothing | .text _, .list _
  | .text _, .record _ | .truth _, .int _ | .truth _, .real _ | .truth _, .text _
  | .truth _, .nothing | .truth _, .list _ | .truth _, .record _ | .nothing, .int _
  | .nothing, .real _ | .nothing, .text _ | .nothing, .truth _ | .nothing, .list _
  | .nothing, .record _ | .list _, .int _ | .list _, .real _ | .list _, .text _
  | .list _, .truth _ | .list _, .nothing | .list _, .record _ | .record _, .int _
  | .record _, .real _ | .record _, .text _ | .record _, .truth _ | .record _, .nothing
  | .record _, .list _ => isFalse (by simp)

/-- Equality of lists of objects is decidable. -/
def decEqAll (xs ys : List Datum) : Decidable (xs = ys) :=
  match xs, ys with
  | [], [] => isTrue rfl
  | [], _ :: _ => isFalse (by simp)
  | _ :: _, [] => isFalse (by simp)
  | x :: xs, y :: ys =>
    match decEq x y, decEqAll xs ys with
    | isTrue h, isTrue k => isTrue (by rw [h, k])
    | isFalse h, _ => isFalse (by simp [h])
    | _, isFalse k => isFalse (by simp [k])

/-- Equality of named fields is decidable. -/
def decEqFields (xs ys : List (String × Datum)) : Decidable (xs = ys) :=
  match xs, ys with
  | [], [] => isTrue rfl
  | [], _ :: _ => isFalse (by simp)
  | _ :: _, [] => isFalse (by simp)
  | (s, x) :: xs, (t, y) :: ys =>
    match decEq x y, decEqFields xs ys with
    | isTrue h, isTrue k => decidable_of_iff (s = t) (by simp [h, k])
    | isFalse h, _ => isFalse (by simp [h])
    | _, isFalse k => isFalse (by simp [k])

end

/-- Whether two objects are the same is decided part by part. -/
instance : DecidableEq Datum := decEq

/-- The items of a sequence in parentheses; a single item keeps a comma. -/
def tuple : List String → String
  | [s] => "(" ++ s ++ ",)"
  | items => "(" ++ ", ".intercalate items ++ ")"

mutual

/-- The object as error texts show it. -/
def describe : Datum → String
  | .int n => toString n
  | .real x => x.shortest
  | .text s => Text.quoted s
  | .truth b => if b then "True" else "False"
  | .nothing => "None"
  | .list items => "[" ++ ", ".intercalate (describeAll items) ++ "]"
  | .record fields => "\x7b" ++ ", ".intercalate (describeFields fields) ++ "\x7d"

/-- The items of a list as error texts show them. -/
def describeAll : List Datum → List String
  | [] => []
  | d :: rest => describe d :: describeAll rest

/-- The fields of a record as error texts show them. -/
def describeFields : List (String × Datum) → List String
  | [] => []
  | (name, d) :: rest => (Text.quoted name ++ ": " ++ describe d) :: describeFields rest

end

/-- The object inside running text: a text stands for itself, without quotes. -/
def shown : Datum → String
  | .text s => s
  | d => d.describe

/-- The kind of the object, by name. -/
def kind : Datum → String
  | .int _ => "int"
  | .real _ => "float"
  | .text _ => "str"
  | .truth _ => "bool"
  | .nothing => "NoneType"
  | .list _ => "list"
  | .record _ => "dict"

/-- The text, if the object is one. -/
def text? : Datum → Option String
  | .text s => some s
  | _ => none

/-- Is the object a number that is not a truth value? -/
def isNumber : Datum → Bool
  | .int _ | .real _ => true
  | _ => false

/-- Is the object neither a list nor a record? -/
def isAtom : Datum → Bool
  | .list _ | .record _ => false
  | _ => true

/-- Is a number below zero? The question has no answer for other objects; a truth value counts as
zero or one. -/
def isNegative? : Datum → Option Bool
  | .int n => some (decide (n < 0))
  | .real x => some x.isBelowZero
  | .truth _ => some false
  | _ => none

end Datum

end BayesGraph
