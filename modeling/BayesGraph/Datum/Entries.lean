import BayesGraph.Error
import BayesGraph.Number
import BayesGraph.Numeral
import BayesGraph.Tensor

/-!
# Objects as arrays of numbers

A number, or nested lists of numbers, can be read as an array if the lists are rectangular. A
missing entry is a NaN, a truth value is one or zero, and a text has to be a numeral.
-/

set_option autoImplicit false

namespace BayesGraph.Datum

mutual

/-- The shape of nested lists, if they are rectangular. -/
def shape? : Datum → Option (List Nat)
  | .list items => (commonShape? items).map (items.length :: ·)
  | _ => some []

/-- The shape that all items of a list have; the items of an empty list count as scalars. -/
def commonShape? : List Datum → Option (List Nat)
  | [] => some []
  | [d] => shape? d
  | d :: e :: rest => do
    let s ← shape? d
    let t ← commonShape? (e :: rest)
    if s = t then some s else none

end

mutual

/-- The innermost items of nested lists, in row-major order. -/
def leaves : Datum → List Datum
  | .list items => leavesOfAll items
  | d => [d]

/-- The innermost items of all members of a list. -/
def leavesOfAll : List Datum → List Datum
  | [] => []
  | d :: rest => leaves d ++ leavesOfAll rest

end

/-- The double that a text denotes. -/
def readText (s : String) : Except EvalError Double :=
  match Numeral.read? s with
  | some x => .ok x
  | none => .error .badValue

/-- An entry of an array as a double. -/
def entry : Datum → Except EvalError Double
  | .int n =>
    match Double.ofInt? n with
    | some x => .ok x
    | none => .error .overflow
  | .real x => .ok x
  | .truth b => .ok (Double.ofInt (if b then 1 else 0))
  | .nothing => .ok Double.nan
  | .text s => readText s
  | .list _ => .error .badValue
  | .record _ => .error .wrongKind

mutual

/-- Rectangular nested lists have as many innermost items as their shape asks for. -/
theorem length_leaves : (d : Datum) → {s : List Nat} → d.shape? = some s →
    d.leaves.length = Tensor.volume s
  | .list items, s, h => by
    rw [shape?, Option.map_eq_some_iff] at h
    obtain ⟨t, ht, rfl⟩ := h
    rw [leaves, length_leavesOfAll items ht, Tensor.volume_cons]
  | .int _, _, h | .real _, _, h | .text _, _, h | .truth _, _, h | .nothing, _, h
  | .record _, _, h => by
    cases h
    rfl

/-- The members of a list that have a common shape have as many innermost items each. -/
theorem length_leavesOfAll : (items : List Datum) → {s : List Nat} →
    commonShape? items = some s →
    (leavesOfAll items).length = items.length * Tensor.volume s
  | [], _, _ => by simp [leavesOfAll]
  | [d], s, h => by
    rw [commonShape?] at h
    simp [leavesOfAll, length_leaves d h]
  | d :: e :: rest, s, h => by
    simp only [commonShape?, Option.bind_eq_bind, Option.bind_eq_some_iff] at h
    obtain ⟨t, ht, u, hu, heq⟩ := h
    split at heq
    · next htu =>
      subst htu
      cases heq
      rw [leavesOfAll, List.length_append, length_leaves d ht, length_leavesOfAll _ hu,
        List.length_cons (a := d), Nat.succ_mul, Nat.add_comm]
    · simp at heq

end

/-- The innermost items of rectangular nested lists, as an array. -/
def rectangle? (d : Datum) : Option (Tensor Datum) :=
  match h : d.shape? with
  | none => none
  | some shape => some ⟨shape, d.leaves, length_leaves d h⟩

/-- A number, or rectangular nested lists of numbers, as an array. -/
def tensor (d : Datum) : Except EvalError (Tensor Double) :=
  match d.rectangle? with
  | none => .error .badValue
  | some items => items.mapM entry

/-- Is the object a list? -/
def isList : Datum → Bool
  | .list _ => true
  | _ => false

end BayesGraph.Datum
