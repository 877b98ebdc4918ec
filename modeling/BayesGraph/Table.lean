/-!
# Insertion-ordered tables

A table holds each key at most once, in the order in which the keys were first inserted. Inserting
under a key that is present replaces the value and keeps the place.
-/

set_option autoImplicit false

namespace BayesGraph

/-- Pairs of keys and values, in the order of first insertion. -/
structure Table (κ ν : Type) where
  entries : List (κ × ν)

namespace Table

variable {κ ν : Type} [DecidableEq κ]

/-- The table without entries. -/
def empty : Table κ ν := ⟨[]⟩

/-- The table without entries is there for every type of keys and values. -/
instance : Inhabited (Table κ ν) := ⟨empty⟩

/-- The value under a key. -/
def get? (t : Table κ ν) (k : κ) : Option ν :=
  (t.entries.find? fun e => decide (e.1 = k)).map (·.2)

/-- Is there a value under the key? -/
def contains (t : Table κ ν) (k : κ) : Bool := (t.get? k).isSome

/-- Replaces the value of a key in a list of entries, or appends the entry. -/
def insertInto (k : κ) (v : ν) : List (κ × ν) → List (κ × ν)
  | [] => [(k, v)]
  | e :: rest => if e.1 = k then (k, v) :: rest else e :: insertInto k v rest

/-- Puts a value under a key. -/
def insert (t : Table κ ν) (k : κ) (v : ν) : Table κ ν := ⟨insertInto k v t.entries⟩

/-- The keys in order. -/
def keys (t : Table κ ν) : List κ := t.entries.map (·.1)

/-- Number of entries. -/
def size (t : Table κ ν) : Nat := t.entries.length

/-- Inserts the pairs from left to right. -/
def ofList (pairs : List (κ × ν)) : Table κ ν :=
  pairs.foldl (fun t p => t.insert p.1 p.2) empty

/-- Applies a function to every value. -/
def map {μ : Type} (f : ν → μ) (t : Table κ ν) : Table κ μ :=
  ⟨t.entries.map fun e => (e.1, f e.2)⟩

end Table

/-- The members of a list without repetition, in the order of first occurrence. -/
def distinct {κ : Type} [DecidableEq κ] : List κ → List κ
  | [] => []
  | x :: rest => x :: (distinct rest).filter (fun y => decide (y ≠ x))

end BayesGraph
