import Mathlib.Data.List.Induction
import Mathlib.Data.List.Nodup
import BayesGraph.Bindings
import BayesGraph.Proofs.Outcome
import BayesGraph.Proofs.Table

/-!
# Flattened data, entry by entry

`Bindings.flatten` numbers the entries of nested lists in row-major order and leaves out what is
missing. `Datum.number?` goes the other way: it follows indices into the lists and reads the number
there. A lookup in flattened data is such a search in the data as given.
-/

set_option autoImplicit false

namespace BayesGraph

open Outcome

/-! ## Entries of nested lists -/

/-- A shape has as many indices as its volume. -/
theorem length_indexProduct (shape : List Nat) :
    (indexProduct shape).length = Tensor.volume shape := by
  induction shape with
  | nil => rfl
  | cons n shape ih => simp [indexProduct, ih]

/-- Index tuples are listed in lexicographic order: the last index runs fastest. -/
theorem pairwise_lt_indexProduct (shape : List Nat) : (indexProduct shape).Pairwise (· < ·) := by
  induction shape with
  | nil => exact List.pairwise_singleton _ []
  | cons n shape ih =>
    rw [indexProduct]
    refine List.pairwise_flatMap.mpr ⟨fun i _ => ?_, ?_⟩
    · -- the tuples with one first index
      exact List.pairwise_map.mpr (ih.imp fun h => List.cons_lt_cons_iff.mpr (.inr ⟨rfl, h⟩))
    · refine List.pairwise_lt_range.imp fun hij => ?_
      intro is hi js hj
      obtain ⟨is, -, rfl⟩ := List.mem_map.mp hi
      obtain ⟨js, -, rfl⟩ := List.mem_map.mp hj
      exact List.cons_lt_cons_iff.mpr (.inl (Nat.succ_lt_succ hij))

/-- Every index of a shape is listed once. -/
theorem nodup_indexProduct (shape : List Nat) : (indexProduct shape).Nodup := by
  refine (pairwise_lt_indexProduct shape).imp ?_
  rintro is _ hlt rfl
  exact List.lt_irrefl is hlt

namespace Datum

/-- The item of nested lists at indices, which are counted from one. -/
def at? : List Int → Datum → Option Datum
  | [], d => if d.isList then none else some d
  | i :: is, .list items => if 1 ≤ i then (items[(i - 1).toNat]?).bind (at? is) else none
  | _ :: _, _ => none

/-- The number at some indices, unless it is missing. -/
def number? (d : Datum) (is : List Int) : Option (Number Double) :=
  (d.at? is).bind fun e =>
    match e.entry with
    | .ok x => if x.isNaN then none else some (Number.ofDouble x)
    | .error _ => none

/-- Items with a common shape have this shape. -/
theorem shape?_of_commonShape {items : List Datum} {s : List Nat}
    (h : commonShape? items = some s) : ∀ d ∈ items, d.shape? = some s := by
  induction items with
  | nil => simp
  | cons d items ih =>
    cases items with
    | nil =>
      rw [commonShape?] at h
      simpa using h
    | cons e rest =>
      simp only [commonShape?, Option.bind_eq_bind, Option.bind_eq_some_iff] at h
      obtain ⟨t, ht, u, hu, heq⟩ := h
      split at heq
      · next htu =>
        cases heq
        subst htu
        exact List.forall_mem_cons.mpr ⟨ht, ih hu⟩
      · cases heq

mutual

/-- The indices of an array, with its innermost items, lead to these items. -/
theorem mem_zip_leaves : (d : Datum) → {s : List Nat} → d.shape? = some s → {is : List Nat} →
    {e : Datum} → (is, e) ∈ (indexProduct s).zip d.leaves ↔ d.at? (is.map Int.ofNat) = some e
  | .list items, s, h, is, e => by
    rw [shape?, Option.map_eq_some_iff] at h
    obtain ⟨t, ht, rfl⟩ := h
    rw [indexProduct, leaves, List.range_eq_range',
      mem_zip_leavesOfAll items (shape?_of_commonShape ht)]
    cases is with
    | nil => simp [at?, isList]
    | cons i is =>
      rw [List.map_cons, at?]
      constructor
      · rintro ⟨j, d, js, hd, hi, he⟩
        obtain ⟨rfl, rfl⟩ := List.cons.inj hi
        have hplace : (Int.ofNat (0 + j + 1) - 1).toNat = j := by
          simp
        have hpos : 1 ≤ Int.ofNat (0 + j + 1) := by
          rw [Int.ofNat_eq_natCast]
          omega
        rw [if_pos hpos, hplace, hd]
        exact he
      · intro he
        split at he
        · next hpos =>
          obtain ⟨d, hd, he⟩ := Option.bind_eq_some_iff.mp he
          refine ⟨_, d, is, hd, ?_, he⟩
          simp only [Int.ofNat_eq_natCast] at hpos ⊢
          congr 1
          omega
        · cases he
  | .int _, _, h, is, e | .real _, _, h, is, e | .text _, _, h, is, e | .truth _, _, h, is, e
  | .nothing, _, h, is, e | .record _, _, h, is, e => by
    cases h
    cases is <;> simp [indexProduct, leaves, at?, isList, eq_comm]

/-- The same for the members of a list, whose numbers start with `k`. -/
theorem mem_zip_leavesOfAll : (items : List Datum) → {t : List Nat} →
    (∀ d ∈ items, d.shape? = some t) → {k : Nat} → {is : List Nat} → {e : Datum} →
    ((is, e) ∈ ((List.range' k items.length).flatMap fun i =>
        (indexProduct t).map ((i + 1) :: ·)).zip (leavesOfAll items) ↔
      ∃ j d js, items[j]? = some d ∧ is = (k + j + 1) :: js ∧ d.at? (js.map Int.ofNat) = some e)
  | [], _, _, _, _, _ => by simp [leavesOfAll]
  | d :: rest, t, h, k, is, e => by
    obtain ⟨hd, hrest⟩ := List.forall_mem_cons.mp h
    have hlength : ((indexProduct t).map ((k + 1) :: ·)).length = d.leaves.length := by
      rw [List.length_map, length_indexProduct, length_leaves d hd]
    rw [List.length_cons, List.range'_succ, List.flatMap_cons, leavesOfAll,
      List.zip_append hlength, List.mem_append, mem_zip_leavesOfAll rest hrest]
    have hfirst : (is, e) ∈ ((indexProduct t).map ((k + 1) :: ·)).zip d.leaves ↔
        ∃ js, is = (k + 1) :: js ∧ d.at? (js.map Int.ofNat) = some e := by
      rw [List.zip_map_left, List.mem_map]
      constructor
      · rintro ⟨⟨js, e'⟩, hmem, heq⟩
        cases heq
        exact ⟨js, rfl, (mem_zip_leaves d hd).mp hmem⟩
      · rintro ⟨js, rfl, he⟩
        exact ⟨(js, e), (mem_zip_leaves d hd).mpr he, rfl⟩
    rw [hfirst]
    constructor
    · rintro (⟨js, his, he⟩ | ⟨j, d', js, hd', his, he⟩)
      · exact ⟨0, d, js, rfl, his, he⟩
      · refine ⟨j + 1, d', js, hd', ?_, he⟩
        rw [his]
        congr 1
        omega
    · rintro ⟨_ | j, d', js, hd', his, he⟩
      · cases hd'
        exact Or.inl ⟨js, his, he⟩
      · refine Or.inr ⟨j, d', js, hd', ?_, he⟩
        rw [his]
        congr 1
        omega

end

/-- Only positive indices lead to an item. -/
theorem indices_of_at? {is : List Int} {d e : Datum} (h : d.at? is = some e) :
    ∃ js : List Nat, is = js.map Int.ofNat := by
  induction is generalizing d with
  | nil => exact ⟨[], rfl⟩
  | cons i is ih =>
    cases d with
    | list items =>
      rw [at?] at h
      split at h
      · next hpos =>
        obtain ⟨d', -, he⟩ := Option.bind_eq_some_iff.mp h
        obtain ⟨js, rfl⟩ := ih he
        refine ⟨i.toNat :: js, ?_⟩
        rw [List.map_cons, Int.ofNat_eq_natCast, Int.toNat_of_nonneg (by omega)]
      · cases h
    | int _ | real _ | text _ | truth _ | nothing | record _ => cases h

/-- If all innermost items of an array are numbers, those that are present are the numbers at the
indices of its shape. -/
theorem number?_eq_some_iff {d : Datum} {s : List Nat} (hs : d.shape? = some s) {xs : List Double}
    (hxs : List.Forall₂ (fun e x => e.entry = .ok x) d.leaves xs) {is : List Int}
    {v : Number Double} :
    d.number? is = some v ↔ ∃ js x, (js, x) ∈ (indexProduct s).zip xs ∧ is = js.map Int.ofNat ∧
      x.isNaN = false ∧ v = Number.ofDouble x := by
  unfold number?
  rw [Option.bind_eq_some_iff]
  constructor
  · rintro ⟨e, he, hv⟩
    obtain ⟨js, rfl⟩ := indices_of_at? he
    obtain ⟨x, hx, hentry⟩ := mem_zip_of_forall₂ hxs.flip ((mem_zip_leaves d hs).mpr he)
    rw [hentry] at hv
    dsimp only at hv
    split at hv
    · cases hv
    · next hnan =>
      cases hv
      exact ⟨js, x, hx, rfl, Bool.eq_false_iff.mpr hnan, rfl⟩
  · rintro ⟨js, x, hx, rfl, hnan, rfl⟩
    obtain ⟨e, he, hentry⟩ := mem_zip_of_forall₂ hxs hx
    refine ⟨e, (mem_zip_leaves d hs).mp he, ?_⟩
    rw [hentry]
    simp [hnan]

end Datum

/-! ## Entries of bindings -/

namespace Bindings

/-- The number that data has for an identity, unless there is none. -/
def given (bindings : Table String Datum) (id : Identity) : Option (Number Double) :=
  (bindings.get? id.name).bind (·.number? id.indices)

/-- What is found among the entries is added under the identity of its index. -/
theorem get?_addEntries {name : String} {entries : List (List Nat × Double)}
    (hnodup : (entries.map (·.1)).Nodup) {values : Table Identity (Number Double)}
    (hnew : ∀ is ∈ entries.map (·.1), values.get? ⟨name, is.map Int.ofNat⟩ = none) {id : Identity}
    {v : Number Double} :
    (addEntries name values entries).get? id = some v ↔
      (∃ is x, (is, x) ∈ entries ∧ id = ⟨name, is.map Int.ofNat⟩ ∧ x.isNaN = false ∧
        v = Number.ofDouble x) ∨ values.get? id = some v := by
  induction entries generalizing values with
  | nil => simp [addEntries]
  | cons e entries ih =>
    obtain ⟨is, x⟩ := e
    rw [List.map_cons, List.nodup_cons] at hnodup
    obtain ⟨hfresh, hnodup⟩ := hnodup
    have hrest : ∀ js ∈ entries.map (·.1), values.get? ⟨name, js.map Int.ofNat⟩ = none :=
      fun js hjs => hnew js (List.mem_cons_of_mem is hjs)
    have hhead : ∀ {P : List Nat → Double → Prop}, (∃ js y, (js, y) ∈ (is, x) :: entries ∧ P js y) ↔
        P is x ∨ ∃ js y, (js, y) ∈ entries ∧ P js y := by
      intro P
      constructor
      · rintro ⟨js, y, hmem, hP⟩
        rcases List.mem_cons.mp hmem with heq | hmem
        · cases heq
          exact Or.inl hP
        · exact Or.inr ⟨js, y, hmem, hP⟩
      · rintro (hP | ⟨js, y, hmem, hP⟩)
        · exact ⟨is, x, List.mem_cons_self, hP⟩
        · exact ⟨js, y, List.mem_cons_of_mem _ hmem, hP⟩
    rw [hhead]
    show (addEntries name (if x.isNaN then values else
      values.insert ⟨name, is.map Int.ofNat⟩ (Number.ofDouble x)) entries).get? id = some v ↔ _
    by_cases hnan : x.isNaN = true
    · rw [if_pos hnan, ih hnodup hrest]
      simp [hnan]
    · rw [if_neg hnan, ih hnodup]
      · -- The entry in front is looked up after the others have been added, none of which has its
        -- indices.
        rw [Table.get?_insert]
        by_cases hid : id = ⟨name, is.map Int.ofNat⟩
        · subst hid
          have hnone := hnew is List.mem_cons_self
          rw [if_pos rfl, Option.some.injEq, hnone]
          constructor
          · rintro (hold | rfl)
            · exact Or.inl (Or.inr hold)
            · exact Or.inl (Or.inl ⟨rfl, Bool.eq_false_iff.mpr hnan, rfl⟩)
          · rintro ((⟨-, -, rfl⟩ | hold) | hv)
            · exact Or.inr rfl
            · exact Or.inl hold
            · cases hv
        · rw [if_neg (Ne.symm hid)]
          simp [hid]
      · intro js hjs
        rw [Table.get?_insert_of_ne]
        · exact hrest js hjs
        · intro heq
          have hindices := congrArg Identity.indices heq
          have hsame : is = js := List.map_injective_iff.mpr (fun _ _ => Int.ofNat.inj) hindices
          exact hfresh (hsame ▸ hjs)

/-- An entry is read as the object is. -/
theorem entry_eq_ok {name : String} {d : Datum} {x : Double} :
    entry name d = .ok x ↔ d.entry = .ok x := by
  unfold entry
  split <;> simp_all

/-- A name can be added if its value is rectangular, has not too many dimensions, and consists of
numbers. -/
theorem add_eq_ok_iff {b c : Bindings} {name : String} {d : Datum} : b.add name d = .ok c ↔
    ∃ s xs, d.shape? = some s ∧ s.length ≤ maxRank ∧
      List.Forall₂ (fun e x => e.entry = .ok x) d.leaves xs ∧
      c = ⟨addEntries name b.values ((indexProduct s).zip xs), b.shapes.insert name s⟩ := by
  unfold add
  cases d.shape? with
  | none => simp
  | some s =>
    dsimp only
    split
    · next hrank =>
      constructor
      · intro h
        cases h
      · rintro ⟨_, -, heq, hle, -⟩
        cases heq
        exact absurd hle (Nat.not_le.mpr hrank)
    · next hrank =>
      simp only [bind_eq_ok, pure_eq_ok, mapM_eq_ok, entry_eq_ok]
      constructor
      · rintro ⟨xs, hxs, rfl⟩
        exact ⟨s, xs, rfl, Nat.not_lt.mp hrank, hxs, rfl⟩
      · rintro ⟨_, xs, heq, -, hxs, rfl⟩
        cases heq
        exact ⟨xs, hxs, rfl⟩

/-- Adding a name gives its identities the numbers of its entries, and changes no others. -/
theorem add_eq_ok {b c : Bindings} {name : String} {d : Datum} (h : b.add name d = .ok c)
    (hnew : ∀ id, id.name = name → b.values.get? id = none) :
    (∃ s, d.shape? = some s ∧ c.shapes = b.shapes.insert name s) ∧
      ∀ id, c.values.get? id =
        if id.name = name then d.number? id.indices else b.values.get? id := by
  obtain ⟨s, xs, hs, -, hentries, rfl⟩ := add_eq_ok_iff.mp h
  refine ⟨⟨s, hs, rfl⟩, fun id => ?_⟩
  have hlength : (indexProduct s).length = xs.length := by
    rw [length_indexProduct, ← Datum.length_leaves d hs, hentries.length_eq]
  have hkeys : (((indexProduct s).zip xs).map (·.1)).Nodup := by
    rw [List.map_fst_zip (Nat.le_of_eq hlength)]
    exact nodup_indexProduct s
  apply Option.ext
  intro v
  rw [get?_addEntries hkeys (fun is _ => hnew _ rfl)]
  by_cases hid : id.name = name
  · rw [if_pos hid, Datum.number?_eq_some_iff hs hentries, hnew id hid]
    subst hid
    constructor
    · rintro (⟨is, x, hx, heq, hnan, hv⟩ | hv)
      · exact ⟨is, x, hx, congrArg Identity.indices heq, hnan, hv⟩
      · cases hv
    · rintro ⟨is, x, hx, heq, hnan, hv⟩
      refine Or.inl ⟨is, x, hx, ?_, hnan, hv⟩
      rw [← heq]
  · rw [if_neg hid]
    constructor
    · rintro (⟨is, x, -, heq, -⟩ | hv)
      · exact absurd (congrArg Identity.name heq) hid
      · exact hv
    · exact Or.inr

/-- The names with shapes are those that were added. -/
theorem contains_shapes_foldlM {entries : List (String × Datum)} {b c : Bindings}
    (h : entries.foldlM (fun b e => b.add e.1 e.2) b = .ok c) {name : String} :
    c.shapes.contains name = true ↔ name ∈ entries.map (·.1) ∨ b.shapes.contains name = true := by
  induction entries generalizing b with
  | nil =>
    cases h
    simp
  | cons e entries ih =>
    rw [List.foldlM_cons, bind_eq_ok] at h
    obtain ⟨mid, hmid, hrest⟩ := h
    obtain ⟨s, xs, -, -, -, rfl⟩ := add_eq_ok_iff.mp hmid
    rw [ih hrest, Table.contains_insert_iff, List.map_cons, List.mem_cons]
    tauto

/-- The names with shapes are those that are bound. -/
theorem contains_shapes_iff {bindings : Table String Datum} {data : Bindings}
    (h : flatten bindings = .ok data) {name : String} :
    data.shapes.contains name = true ↔ name ∈ bindings.keys := by
  rw [contains_shapes_foldlM h]
  exact or_iff_left Bool.false_ne_true

/-- A variable that is bound has a shape in the data. -/
theorem contains_shapes {bindings : Table String Datum} {data : Bindings}
    (h : flatten bindings = .ok data) {name : String} (hname : bindings.contains name = true) :
    data.shapes.contains name = true :=
  (contains_shapes_iff h).mpr ((Table.mem_keys_iff _ _).mpr hname)

/-- An identity among the entries has the name of the variable. -/
theorem name_of_addEntries {name : String} {entries : List (List Nat × Double)}
    {values : Table Identity (Number Double)} {id : Identity}
    (h : (addEntries name values entries).contains id = true) :
    id.name = name ∨ values.contains id = true := by
  induction entries generalizing values with
  | nil => exact Or.inr h
  | cons e entries ih =>
    rcases ih h with hname | hvalue
    · exact Or.inl hname
    · dsimp only at hvalue
      split at hvalue
      · exact Or.inr hvalue
      · rcases Table.contains_insert_iff.mp hvalue with rfl | hvalue
        · exact Or.inl rfl
        · exact Or.inr hvalue

/-- What has a value belongs to an array that is bound. -/
theorem mem_keys_of_value {bindings : Table String Datum} {data : Bindings}
    (h : flatten bindings = .ok data) {id : Identity} (hid : data.values.contains id = true) :
    id.name ∈ bindings.keys := by
  rw [← contains_shapes_iff h]
  refine foldlM_invariant (fun b : Bindings => b.values.contains id = true →
    b.shapes.contains id.name = true) h ?_ ?_ hid
  · intro hempty
    cases hempty
  · intro e _ b c hb hc hvalue
    obtain ⟨s, xs, -, -, -, rfl⟩ := add_eq_ok_iff.mp hc
    apply Table.contains_insert_iff.mpr
    rcases name_of_addEntries hvalue with hname | hvalue
    · exact Or.inl hname
    · exact Or.inr (hb hvalue)

/-- The values of flattened data are those that the data gives, and the shapes are the shapes of the
data. The induction is on the names, last one first. -/
theorem flatten_eq_ok {bindings : Table String Datum} (hkeys : bindings.keys.Nodup)
    {data : Bindings} (h : flatten bindings = .ok data) :
    (∀ id, data.values.get? id = given bindings id) ∧
      ∀ name, data.shapes.get? name = (bindings.get? name).bind (·.shape?) := by
  obtain ⟨entries⟩ := bindings
  unfold flatten at h
  dsimp only at h
  -- Arrays are added from the left, so the induction takes the last one off.
  induction entries using List.reverseRecOn generalizing data with
  | nil =>
    cases h
    exact ⟨fun id => rfl, fun name => rfl⟩
  | append_singleton entries e ih =>
    obtain ⟨b, hb, hadd⟩ := foldlM_append_eq_ok.mp h
    rw [foldlM_singleton] at hadd
    obtain ⟨name, d⟩ := e
    have hsplit : ((entries.map (·.1)) ++ [name]).Nodup := by
      simpa [Table.keys] using hkeys
    have hnew : name ∉ entries.map (·.1) := by
      intro hmem
      exact (List.nodup_append.mp hsplit).2.2 name hmem name (by simp) rfl
    obtain ⟨hvalues, hshapes⟩ := ih (List.nodup_append.mp hsplit).1 hb
    have hfresh : (Table.mk entries).contains name = false := by
      rw [← Bool.not_eq_true, ← Table.mem_keys_iff]
      exact hnew
    have hnone : (Table.mk entries).get? name = none := (Table.contains_eq_false_iff _ _).mp hfresh
    have hinsert : Table.mk (entries ++ [(name, d)]) = (Table.mk entries).insert name d :=
      congrArg Table.mk (Table.entries_insert_of_new d hfresh).symm
    obtain ⟨⟨s, hs, hshape⟩, hvalue⟩ := add_eq_ok hadd fun id hid => by
      rw [hvalues id, given, hid, hnone]
      rfl
    constructor
    · intro id
      rw [hvalue id, given, hinsert, Table.get?_insert]
      by_cases hid : id.name = name
      · rw [if_pos hid, if_pos hid.symm]
        rfl
      · rw [if_neg hid, if_neg (Ne.symm hid), hvalues id]
        rfl
    · intro other
      rw [hshape, hinsert, Table.get?_insert, Table.get?_insert]
      by_cases hother : name = other
      · rw [if_pos hother, if_pos hother]
        exact hs.symm
      · rw [if_neg hother, if_neg hother, hshapes other]

end Bindings

end BayesGraph
