import BayesGraph.Proofs.DataEntries
import BayesGraph.Proofs.Rounding
import BayesGraph.Proofs.Shapes

/-!
# Arrays and their flattened form

`Bindings.flatten` turns nested lists into two tables: the shapes of all names, and the numbers that
are present. Nested lists are rectangular if all items of a list have one shape
(`Datum.Rectangular`); in such lists exactly the indices within the shape lead to an item
(`exists_at?_iff`). A number of the table has the value of its entry, and it is an integer if that
value is integral (`Number.Denotes`).

Nothing gets lost on the way. `Bindings.restore` builds nested lists from the two tables, and these
are the lists that were given, up to the way in which a number or a missing entry is written
(`Datum.plain`).
-/

set_option autoImplicit false

namespace BayesGraph

open Outcome

/-! ## Rectangular lists -/

namespace Datum

/-- Nested lists with as many levels as the shape has dimensions. On each level all lists have the
same length. An empty list has one dimension, because it does not say what its items would be. -/
inductive Rectangular : Datum → List Nat → Prop
  | item {d : Datum} (hitem : d.isList = false) : Rectangular d []
  | list {items : List Datum} {s : List Nat} (hitems : ∀ d ∈ items, Rectangular d s)
      (hempty : items = [] → s = []) : Rectangular (.list items) (items.length :: s)

variable {d e : Datum} {s : List Nat} {is : List Int}

/-- Items that all have a shape have it in common. -/
theorem commonShape?_of_forall {items : List Datum} (h : ∀ d ∈ items, d.shape? = some s)
    (hempty : items = [] → s = []) : commonShape? items = some s := by
  induction items with
  | nil => rw [commonShape?, hempty rfl]
  | cons d rest ih =>
    obtain ⟨hd, hrest⟩ := List.forall_mem_cons.mp h
    cases rest with
    | nil => rw [commonShape?, hd]
    | cons e rest =>
      have hcommon := ih hrest (fun hnil => absurd hnil (List.cons_ne_nil e rest))
      simp [commonShape?, hd, hcommon]

/-- A rectangular object has its shape. -/
theorem Rectangular.shape?_eq (h : d.Rectangular s) : d.shape? = some s := by
  induction h with
  | @item d hitem => cases d <;> first | rfl | cases hitem
  | list _ hempty ih => rw [shape?, commonShape?_of_forall ih hempty, Option.map_some]

/-- The induction is on the shape: each dimension is one level of lists. -/
theorem rectangular_of_shape? (h : d.shape? = some s) : d.Rectangular s := by
  induction s generalizing d with
  | nil =>
    apply Rectangular.item
    cases d <;> first | rfl | simp [shape?] at h
  | cons n s ih =>
    cases d with
    | list items =>
      rw [shape?, Option.map_eq_some_iff] at h
      obtain ⟨t, ht, heq⟩ := h
      obtain ⟨rfl, rfl⟩ := List.cons.inj heq
      apply Rectangular.list
      · intro d hd
        exact ih (shape?_of_commonShape ht d hd)
      · intro hnil
        subst hnil
        rw [commonShape?, Option.some.injEq] at ht
        exact ht.symm
    | int _ | real _ | text _ | truth _ | nothing | record _ => simp [shape?] at h

/-- The shape that is computed is the one of rectangular lists, and there is none for others. -/
theorem shape?_eq_some_iff : d.shape? = some s ↔ d.Rectangular s :=
  ⟨rectangular_of_shape?, Rectangular.shape?_eq⟩

/-- The object at an index is found in the item at its first number. -/
theorem at?_cons_list {items : List Datum} {i : Int} (hi : 1 ≤ i) :
    (Datum.list items).at? (i :: is) = (items[(i - 1).toNat]?).bind (at? is) := by
  rw [at?, if_pos hi]

/-- Exactly the indices within the shape lead to an item. -/
theorem exists_at?_iff (h : d.Rectangular s) : (∃ e, d.at? is = some e) ↔ Fits is s := by
  induction h generalizing is with
  | @item d hitem =>
    cases is with
    | nil => simp [at?, hitem, Fits]
    | cons i is =>
      have hnone : d.at? (i :: is) = none := by
        cases d <;> first | rfl | cases hitem
      simp [hnone, Fits]
  | @list items s hitems _ ih =>
    cases is with
    | nil => simp [at?, isList, Fits]
    | cons i is =>
      rw [Fits, List.forall₂_cons]
      constructor
      · rintro ⟨e, he⟩
        by_cases hi : 1 ≤ i
        · rw [at?_cons_list hi, Option.bind_eq_some_iff] at he
          obtain ⟨d, hd, he⟩ := he
          obtain ⟨hlt, rfl⟩ := List.getElem?_eq_some_iff.mp hd
          refine ⟨⟨hi, by omega⟩, ?_⟩
          exact (ih _ (List.getElem_mem hlt)).mp ⟨e, he⟩
        · rw [at?, if_neg hi] at he
          cases he
      · rintro ⟨⟨hi, hle⟩, hfits⟩
        have hlt : (i - 1).toNat < items.length := by omega
        rw [at?_cons_list hi, List.getElem?_eq_getElem hlt, Option.bind_some]
        exact (ih _ (List.getElem_mem hlt)).mpr hfits

/-- The innermost items are those to which indices lead. -/
theorem mem_leaves_iff (h : d.Rectangular s) : e ∈ d.leaves ↔ ∃ is, d.at? is = some e := by
  have hshape := h.shape?_eq
  have hlength : d.leaves.length ≤ (indexProduct s).length := by
    rw [length_indexProduct, length_leaves d hshape]
  constructor
  · intro he
    rw [← List.map_snd_zip hlength, List.mem_map] at he
    obtain ⟨⟨js, e⟩, hzip, rfl⟩ := he
    exact ⟨_, (mem_zip_leaves d hshape).mp hzip⟩
  · rintro ⟨is, he⟩
    obtain ⟨js, rfl⟩ := indices_of_at? he
    exact (List.of_mem_zip ((mem_zip_leaves d hshape).mpr he)).2

/-- An object that can be read as an array of numbers. -/
structure IsArray (d : Datum) : Prop where
  shape : ∃ s, d.Rectangular s ∧ s.length ≤ maxRank
  numbers : ∀ is e, d.at? is = some e → ∃ x, e.entry = .ok x

/-- An entry that stands for nothing: it is absent, or not a number. -/
def IsMissing (e : Datum) : Prop := e = .nothing ∨ ∃ x, e.entry = .ok x ∧ x.isNaN = true

/-- An entry is missing if it is read as no number. -/
theorem isMissing_iff {x : Double} (h : e.entry = .ok x) : e.IsMissing ↔ x.isNaN = true := by
  constructor
  · rintro (rfl | ⟨y, hy, hnan⟩)
    · cases h
      rfl
    · rw [h, Except.ok.injEq] at hy
      exact hy ▸ hnan
  · intro hnan
    exact Or.inr ⟨x, h, hnan⟩

/-- The number at an index is the entry there, unless it is missing. -/
theorem number?_eq_some {v : Number Double} : d.number? is = some v ↔
    ∃ e x, d.at? is = some e ∧ e.entry = .ok x ∧ x.isNaN = false ∧ v = Number.ofDouble x := by
  unfold number?
  rw [Option.bind_eq_some_iff]
  constructor
  · rintro ⟨e, he, hv⟩
    split at hv
    · next x hx =>
      split at hv
      · cases hv
      · next hnan =>
        cases hv
        exact ⟨e, x, he, hx, Bool.eq_false_iff.mpr hnan, rfl⟩
    · cases hv
  · rintro ⟨e, x, he, hx, hnan, rfl⟩
    refine ⟨e, he, ?_⟩
    rw [hx]
    simp [hnan]

/-- In an array, there is a number at each place within the shape where none is missing. -/
theorem IsArray.isSome_number?_iff (h : d.IsArray) (hs : d.Rectangular s) :
    (d.number? is).isSome = true ↔
      Fits is s ∧ ¬ ∃ e, d.at? is = some e ∧ e.IsMissing := by
  rw [← exists_at?_iff hs, Option.isSome_iff_exists]
  constructor
  · rintro ⟨v, hv⟩
    obtain ⟨e, x, he, hx, hnan, -⟩ := number?_eq_some.mp hv
    refine ⟨⟨e, he⟩, ?_⟩
    rintro ⟨e', he', hmissing⟩
    rw [he, Option.some.injEq] at he'
    subst he'
    rw [isMissing_iff hx, hnan] at hmissing
    cases hmissing
  · rintro ⟨⟨e, he⟩, hpresent⟩
    obtain ⟨x, hx⟩ := h.numbers is e he
    refine ⟨_, number?_eq_some.mpr ⟨e, x, he, hx, ?_, rfl⟩⟩
    rw [Bool.eq_false_iff]
    intro hnan
    exact hpresent ⟨e, he, (isMissing_iff hx).mpr hnan⟩

end Datum

/-! ## Numbers and the doubles they denote -/

/-- A number has the value of a double: an integer equals it, and any other number is the double
itself, which is no integer then. -/
def Number.Denotes : Number Double → Double → Prop
  | .int n, x => x.isFinite = true ∧ x.toReal = n
  | .real y, x => y = x ∧ ∀ n : ℤ, ¬ (x.isFinite = true ∧ x.toReal = n)

/-- The number that a double is turned into has its value. -/
theorem Number.denotes_ofDouble (x : Double) : (Number.ofDouble x).Denotes x := by
  unfold Number.ofDouble
  cases h : x.toInt? with
  | some n => exact ⟨(Double.of_toInt? h).1, Double.toReal_of_toInt? h⟩
  | none =>
    refine ⟨rfl, ?_⟩
    rintro n ⟨hfinite, hn⟩
    have hsome := Double.isSome_toInt? hfinite hn
    rw [h] at hsome
    cases hsome

/-! ## Nested lists from the tables -/

namespace Datum

/-- A number as an object, and nothing in place of a missing one. -/
def ofNumber? : Option (Number Double) → Datum
  | none => .nothing
  | some (.int n) => .int n
  | some (.real x) => .real x

mutual

/-- The nested lists with every entry written as its number, and every missing one as nothing. -/
def plain : Datum → Datum
  | .list items => .list (plainAll items)
  | d => ofNumber? (d.number? [])

/-- The same for the members of a list. -/
def plainAll : List Datum → List Datum
  | [] => []
  | d :: rest => plain d :: plainAll rest

end

/-- The plain forms of a list are those of its items. -/
theorem plainAll_eq_map (items : List Datum) : plainAll items = items.map plain := by
  induction items with
  | nil => rfl
  | cons d rest ih => rw [plainAll, ih, List.map_cons]

/-- Nested lists of a shape, whose items are given by their indices. -/
def tabulate : List Nat → (List Int → Datum) → Datum
  | [], f => f []
  | n :: s, f => .list ((List.range n).map fun i => tabulate s fun is => f ((i + 1 : Nat) :: is))

/-- The number at an index is found in the item at its first number. -/
theorem number?_cons_list {items : List Datum} {i : Nat} (hi : i < items.length) (is : List Int) :
    (Datum.list items).number? ((i + 1 : Nat) :: is) = items[i].number? is := by
  have hplace : (((i + 1 : Nat) : Int) - 1).toNat = i := by omega
  rw [number?, at?_cons_list (by omega), hplace, List.getElem?_eq_getElem hi, Option.bind_some]
  rfl

/-- The numbers of rectangular lists, put at their indices, are these lists again. -/
theorem tabulate_number? {d : Datum} {s : List Nat} (h : d.Rectangular s) :
    tabulate s (fun is => ofNumber? (d.number? is)) = d.plain := by
  induction h with
  | @item d hitem => cases d <;> first | rfl | cases hitem
  | @list items s _ _ ih =>
    rw [tabulate, plain, plainAll_eq_map]
    congr 1
    apply List.ext_getElem
    · simp
    · intro i hi hi'
      have hlt : i < items.length := by simpa using hi'
      simp only [List.getElem_map, List.getElem_range, number?_cons_list hlt]
      exact ih _ (List.getElem_mem hlt)

end Datum

namespace Bindings

/-- The array of a name as nested lists, from the tables of flattened data. -/
def restore (data : Bindings) (name : String) : Option Datum :=
  (data.shapes.get? name).map fun s =>
    Datum.tabulate s fun is => Datum.ofNumber? (data.values.get? ⟨name, is⟩)

/-! ## One name -/

variable {b c data : Bindings} {name : String} {d : Datum}

/-- A name can be added exactly if its value is an array. -/
theorem exists_add_iff : (∃ c, b.add name d = .ok c) ↔ d.IsArray := by
  constructor
  · rintro ⟨c, hc⟩
    obtain ⟨s, xs, hs, hrank, hxs, -⟩ := add_eq_ok_iff.mp hc
    have hrectangular := Datum.rectangular_of_shape? hs
    refine ⟨⟨s, hrectangular, hrank⟩, fun is e he => ?_⟩
    have hmem := (Datum.mem_leaves_iff hrectangular).mpr ⟨is, he⟩
    obtain ⟨x, -, hx⟩ := exists_of_forall₂ hxs hmem
    exact ⟨x, hx⟩
  · rintro ⟨⟨s, hs, hrank⟩, hnumbers⟩
    have hentries : ∀ e ∈ d.leaves, ∃ x, e.entry = .ok x := by
      intro e he
      obtain ⟨is, his⟩ := (Datum.mem_leaves_iff hs).mp he
      exact hnumbers is e his
    obtain ⟨xs, hxs⟩ := exists_forall₂ hentries
    exact ⟨_, add_eq_ok_iff.mpr ⟨s, xs, hs.shape?_eq, hrank, hxs, rfl⟩⟩

/-! ## All names -/

/-- All names can be added if and only if each value is an array. -/
theorem exists_foldlM_add_iff {entries : List (String × Datum)} (b : Bindings) :
    (∃ c, entries.foldlM (fun b e => b.add e.1 e.2) b = .ok c) ↔ ∀ e ∈ entries, e.2.IsArray := by
  induction entries generalizing b with
  | nil => simp [pure, Except.pure]
  | cons e entries ih =>
    rw [List.forall_mem_cons, List.foldlM_cons]
    constructor
    · rintro ⟨c, hc⟩
      obtain ⟨mid, hmid, hrest⟩ := bind_eq_ok.mp hc
      exact ⟨exists_add_iff.mp ⟨mid, hmid⟩, (ih mid).mp ⟨c, hrest⟩⟩
    · rintro ⟨he, hentries⟩
      have hadd : ∃ mid, b.add e.1 e.2 = .ok mid := exists_add_iff.mpr he
      obtain ⟨mid, hmid⟩ := hadd
      obtain ⟨c, hc⟩ := (ih mid).mpr hentries
      exact ⟨c, bind_eq_ok.mpr ⟨mid, hmid, hc⟩⟩

/-- A name that is added comes behind those that are there. -/
theorem keys_add (h : b.add name d = .ok c) (hnew : name ∉ b.shapes.keys) :
    c.shapes.keys = b.shapes.keys ++ [name] := by
  have hcontains : b.shapes.contains name = false := by
    rw [Table.mem_keys_iff, Bool.not_eq_true] at hnew
    exact hnew
  obtain ⟨s, xs, -, -, -, rfl⟩ := add_eq_ok_iff.mp h
  simp [Table.keys, Table.entries_insert_of_new s hcontains]

/-- The names keep their order. -/
theorem keys_foldlM_add {entries : List (String × Datum)}
    (h : entries.foldlM (fun b e => b.add e.1 e.2) b = .ok c)
    (hnodup : (b.shapes.keys ++ entries.map (·.1)).Nodup) :
    c.shapes.keys = b.shapes.keys ++ entries.map (·.1) := by
  induction entries generalizing b with
  | nil =>
    cases h
    simp
  | cons e entries ih =>
    rw [List.foldlM_cons] at h
    obtain ⟨mid, hmid, hrest⟩ := bind_eq_ok.mp h
    have hnew : e.1 ∉ b.shapes.keys := by
      intro hmem
      exact (List.nodup_append.mp hnodup).2.2 e.1 hmem e.1 (by simp) rfl
    have hkeys := keys_add hmid hnew
    have happend : b.shapes.keys ++ (e :: entries).map (·.1) =
        mid.shapes.keys ++ entries.map (·.1) := by
      simp [hkeys]
    rw [happend] at hnodup ⊢
    exact ih hrest hnodup

/-- What is given for an identity is present in the array of its name. -/
theorem given_eq_some {bindings : Table String Datum} {id : Identity} {v : Number Double} :
    given bindings id = some v ↔
      ∃ d, bindings.get? id.name = some d ∧ d.number? id.indices = some v := by
  unfold given
  rw [Option.bind_eq_some_iff]

/-! ## The main theorem -/

/-- Two tables hold arrays, with their missing entries, and nothing else. The names are those of the
arrays, with their shapes. There is a number for each place within a shape whose entry is present,
and for no other identity; it has the value of the entry. The arrays can be built from the
tables. -/
structure Holds (data : Bindings) (bindings : Table String Datum) : Prop where
  names : data.shapes.keys = bindings.keys
  shape : ∀ name s, data.shapes.get? name = some s ↔
    ∃ d, bindings.get? name = some d ∧ d.Rectangular s
  present : ∀ id, data.values.contains id = true ↔
    ∃ d s, bindings.get? id.name = some d ∧ d.Rectangular s ∧ Fits id.indices s ∧
      ¬ ∃ e, d.at? id.indices = some e ∧ e.IsMissing
  value : ∀ id v, data.values.get? id = some v →
    ∃ d e x, bindings.get? id.name = some d ∧ d.at? id.indices = some e ∧ e.entry = .ok x ∧
      v.Denotes x
  restored : ∀ name, data.restore name = (bindings.get? name).map Datum.plain

/-- Flattening loses and invents nothing: it succeeds for all arrays, and its tables hold them. -/
theorem flatten_holds (bindings : Table String Datum) (hkeys : bindings.keys.Nodup) :
    ((∃ data, flatten bindings = .ok data) ↔ ∀ e ∈ bindings.entries, e.2.IsArray) ∧
      ∀ data, flatten bindings = .ok data → data.Holds bindings := by
  refine ⟨exists_foldlM_add_iff empty, fun data hdata => ?_⟩
  have harrays := (exists_foldlM_add_iff empty).mp ⟨data, hdata⟩
  have harray : ∀ {name d}, bindings.get? name = some d → d.IsArray := by
    intro name d hd
    exact harrays (name, d) (Table.mem_entries_of_get? hd)
  obtain ⟨hvalues, hshapes⟩ := flatten_eq_ok hkeys hdata
  refine ⟨?_, fun name s => ?_, fun id => ?_, fun id v hv => ?_, fun name => ?_⟩
  · exact keys_foldlM_add hdata hkeys
  · rw [hshapes, Option.bind_eq_some_iff]
    simp only [Datum.shape?_eq_some_iff]
  · unfold Table.contains
    rw [hvalues, Option.isSome_iff_exists]
    constructor
    · rintro ⟨v, hv⟩
      obtain ⟨d, hd, hnumber⟩ := given_eq_some.mp hv
      obtain ⟨s, hs, -⟩ := (harray hd).shape
      have hsome : (d.number? id.indices).isSome = true :=
        Option.isSome_iff_exists.mpr ⟨v, hnumber⟩
      exact ⟨d, s, hd, hs, ((harray hd).isSome_number?_iff hs).mp hsome⟩
    · rintro ⟨d, s, hd, hs, hpresent⟩
      have hsome := ((harray hd).isSome_number?_iff hs).mpr hpresent
      obtain ⟨v, hv⟩ := Option.isSome_iff_exists.mp hsome
      exact ⟨v, given_eq_some.mpr ⟨d, hd, hv⟩⟩
  · rw [hvalues] at hv
    obtain ⟨d, hd, hnumber⟩ := given_eq_some.mp hv
    obtain ⟨e, x, he, hx, -, rfl⟩ := Datum.number?_eq_some.mp hnumber
    exact ⟨d, e, x, hd, he, hx, Number.denotes_ofDouble x⟩
  · unfold restore
    rw [hshapes]
    cases hd : bindings.get? name with
    | none => rfl
    | some d =>
      obtain ⟨s, hs, -⟩ := (harray hd).shape
      rw [Option.bind_some, hs.shape?_eq, Option.map_some, Option.map_some,
        ← Datum.tabulate_number? hs]
      simp only [hvalues, given, hd, Option.bind_some]

/-- A scalar, a matrix with two missing entries and one without columns. -/
def partialArrays : Table String Datum :=
  ⟨[("N", .int 3),
    ("Y", .list [.list [.real ⟨0x4004000000000000⟩, .nothing], .list [.real .nan, .truth true]]),
    ("E", .list [.list [], .list []])]⟩

/-- Both missing entries are left out, an integral entry is an integer, and a matrix without columns
has a shape alone. -/
theorem flatten_holds_partialArrays : ∃ data,
    flatten partialArrays = .ok data ∧ data.shapes.keys = ["N", "Y", "E"] ∧
    data.shapes.get? "E" = some [2, 0] ∧ data.values.get? ⟨"Y", [2, 2]⟩ = some (.int 1) ∧
    (∃ x, (Datum.truth true).entry = .ok x ∧ (Number.int 1).Denotes x) ∧
    data.values.contains ⟨"Y", [2, 1]⟩ = false ∧
    data.restore "Y" = some (.list [.list [.real ⟨0x4004000000000000⟩, .nothing],
      .list [.nothing, .int 1]]) := by
  have hkeys : partialArrays.keys.Nodup := by decide
  obtain ⟨-, hholds⟩ := flatten_holds partialArrays hkeys
  have hdata : flatten partialArrays = .ok ⟨⟨[(⟨"N", []⟩, .int 3),
      (⟨"Y", [1, 1]⟩, .real ⟨0x4004000000000000⟩), (⟨"Y", [2, 2]⟩, .int 1)]⟩,
      ⟨[("N", []), ("Y", [2, 2]), ("E", [2, 0])]⟩⟩ := by rfl
  have h := hholds _ hdata
  refine ⟨_, hdata, h.names, by rfl, by rfl, ?_, ?_, h.restored "Y"⟩
  · obtain ⟨d, e, x, hd, he, hx, hdenotes⟩ := h.value ⟨"Y", [2, 2]⟩ (.int 1) rfl
    cases hd
    cases he
    exact ⟨x, hx, hdenotes⟩
  · rw [Bool.eq_false_iff]
    intro hcontains
    obtain ⟨d, s, hd, -, -, hpresent⟩ := (h.present ⟨"Y", [2, 1]⟩).mp hcontains
    cases hd
    exact hpresent ⟨.real .nan, rfl, Or.inr ⟨.nan, rfl, rfl⟩⟩

end Bindings

end BayesGraph
