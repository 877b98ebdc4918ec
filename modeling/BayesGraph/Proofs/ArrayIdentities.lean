import Mathlib.Algebra.BigOperators.Ring.List
import Mathlib.Algebra.GroupWithZero.Nat
import BayesGraph.Proofs.RegistrationOrder

/-!
# The identities of an array

A shape table lists the identities of an array by going through the index tuples of its shape, and
it checks a single identity dimension by dimension. The two agree: the list has exactly the
identities that pass the check, each of them once, and the last index runs fastest
(`identities_of_observeAll`). The inductions are on the rank. The tuples with one first index are
those of the remaining dimensions, and such blocks are ordered by their first indices.
-/

set_option autoImplicit false

namespace BayesGraph

/-- There are as many index tuples as entries in an array. -/
theorem length_indexProduct_eq_prod (shape : List Nat) :
    (indexProduct shape).length = shape.prod := by
  rw [length_indexProduct, List.prod_eq_foldr]
  rfl

/-- Only an array with an empty dimension has no index tuples. -/
theorem indexProduct_eq_nil_iff {shape : List Nat} : indexProduct shape = [] ↔ 0 ∈ shape := by
  rw [← List.length_eq_zero_iff, length_indexProduct_eq_prod, List.prod_eq_zero_iff]

namespace ShapeTable

variable {data : Table String (List Nat)} {t : ShapeTable} {name : String} {ids : List Identity}

/-- The identities of an array have its name, and the index tuples of its shape. -/
theorem identities?_eq_some_iff : t.identities? name = some ids ↔
    ∃ shape, t.shape? name = some shape ∧
      (indexProduct shape).map (fun is => ⟨name, is.map Int.ofNat⟩) = ids :=
  Option.map_eq_some_iff

/-- Of an array that is known, the identities that fit into its shape pass the check. -/
theorem checkBounds_iff_fits {id : Identity} {shape : List Nat} {statement : Option String}
    (hshape : t.shape? id.name = some shape) :
    t.checkBounds id statement = .ok () ↔ Fits id.indices shape := by
  rw [checkBounds_eq_ok_iff, hshape]
  constructor
  · rintro ⟨-, hfits⟩
    exact hfits shape rfl
  · intro hfits
    refine ⟨(fits_iff.mp hfits).2.1, ?_⟩
    rintro _ ⟨⟩
    exact hfits

/-- An identity is listed exactly if it has the name of the array and passes the check. -/
theorem mem_identities_iff (h : t.identities? name = some ids) {id : Identity}
    {statement : Option String} :
    id ∈ ids ↔ id.name = name ∧ t.checkBounds id statement = .ok () := by
  obtain ⟨shape, hshape, rfl⟩ := identities?_eq_some_iff.mp h
  rw [List.mem_map]
  constructor
  · rintro ⟨is, his, rfl⟩
    exact ⟨rfl, (checkBounds_iff_fits hshape).mpr (mem_indexProduct_iff.mp his)⟩
  · rintro ⟨rfl, hcheck⟩
    obtain ⟨is, his, hindices⟩ := ((checkBounds_iff_fits hshape).mp hcheck).exists_mem_indexProduct
    exact ⟨is, his, by rw [hindices]⟩

/-- The identities of an array are listed in the lexicographic order of their indices. -/
theorem pairwise_lt_identities (h : t.identities? name = some ids) :
    (ids.map (·.indices)).Pairwise (· < ·) := by
  obtain ⟨shape, -, rfl⟩ := identities?_eq_some_iff.mp h
  rw [List.map_map]
  refine List.pairwise_map.mpr ((pairwise_lt_indexProduct shape).imp fun hlt => ?_)
  exact List.map_lt (fun i j hij => Int.ofNat_lt.mpr hij) hlt

/-- No identity is listed twice. -/
theorem nodup_identities (h : t.identities? name = some ids) : ids.Nodup :=
  List.Nodup.of_map Identity.indices ((pairwise_lt_identities h).imp ne_of_lt)

/-- What was registered is listed. -/
theorem Describes.exists_mem_identities (h : t.Describes data ids) {id : Identity}
    (hid : id ∈ ids) : ∃ all, t.identities? id.name = some all ∧ id ∈ all := by
  obtain ⟨hknown, hpositive, hwithin⟩ := h.accommodates hid
  obtain ⟨shape, hshape⟩ := Option.isSome_iff_exists.mp hknown
  obtain ⟨hlength, hle⟩ := hwithin shape hshape
  have hlisted := identities?_eq_some_iff.mpr ⟨shape, hshape, rfl⟩
  have hfits : Fits id.indices shape := fits_of_within hpositive hlength hle
  have hcheck : t.checkBounds id none = .ok () := (checkBounds_iff_fits hshape).mpr hfits
  exact ⟨_, hlisted, (mem_identities_iff hlisted).mpr ⟨rfl, hcheck⟩⟩

/-- The list of identities and the check of bounds agree. In a table that is filled by successful
registrations, the identities of an array that is known are listed without repetition, in strictly
increasing lexicographic order of their indices, and they are exactly those of its name that lie
within its bounds; so all that was registered is among them. An array of any shape has as many index
tuples as the product of its dimensions, which are none if a dimension is empty, and an array
without dimensions has the empty tuple. -/
theorem identities_of_observeAll {calls : List (Identity × Option String)}
    (h : (ofData data).observeAll calls = .ok t) :
    (∀ name, t.contains name = true → ∃ ids, t.identities? name = some ids ∧ ids.Nodup ∧
      (ids.map (·.indices)).Pairwise (· < ·) ∧
      ∀ id statement, id ∈ ids ↔ id.name = name ∧ t.checkBounds id statement = .ok ()) ∧
    (∀ call ∈ calls, ∃ ids, t.identities? call.1.name = some ids ∧ call.1 ∈ ids) ∧
    (∀ shape, (indexProduct shape).length = shape.prod ∧
      (indexProduct shape = [] ↔ 0 ∈ shape)) ∧
    indexProduct [] = [[]] := by
  refine ⟨fun name hname => ?_, fun call hcall => ?_, fun shape => ?_, rfl⟩
  · obtain ⟨shape, hshape⟩ := Option.isSome_iff_exists.mp hname
    have hlisted := identities?_eq_some_iff.mpr ⟨shape, hshape, rfl⟩
    exact ⟨_, hlisted, nodup_identities hlisted, pairwise_lt_identities hlisted,
      fun id statement => mem_identities_iff hlisted⟩
  · have hdescribes := (describes_ofData data).observeAll h
    rw [List.append_nil] at hdescribes
    exact hdescribes.exists_mem_identities (List.mem_map_of_mem hcall)
  · exact ⟨length_indexProduct_eq_prod shape, indexProduct_eq_nil_iff⟩

/-- The shapes of the data `x`, which has an empty dimension, and `s`, which is a number. -/
def sparseShapes : Table String (List Nat) := ⟨[("x", [2, 0]), ("s", [])]⟩

/-- Two left-hand sides of `mu`, and the number. -/
def sparseCalls : List (Identity × Option String) :=
  [(⟨"mu", [1, 2]⟩, none), (⟨"mu", [2, 1]⟩, none), (⟨"s", []⟩, some "s <- 1")]

/-- The table at the end lists all four identities of `mu`, two of which were not registered. The
array `x` has no identities and the number `s` has one. -/
theorem identities_sparse : ∃ t,
    (ofData sparseShapes).observeAll sparseCalls = .ok t ∧
    t.identities? "mu" =
      some [⟨"mu", [1, 1]⟩, ⟨"mu", [1, 2]⟩, ⟨"mu", [2, 1]⟩, ⟨"mu", [2, 2]⟩] ∧
    t.identities? "x" = some [] ∧ t.identities? "s" = some [⟨"s", []⟩] ∧
    (∀ statement, t.checkBounds ⟨"mu", [2, 2]⟩ statement = .ok ()) ∧
    (∀ j statement, t.checkBounds ⟨"x", [1, j]⟩ statement ≠ .ok ()) ∧
    (indexProduct [2, 2]).length = 2 * 2 := by
  have ht : (ofData sparseShapes).observeAll sparseCalls =
      .ok ⟨sparseShapes, ⟨[("x", [2, 0]), ("s", []), ("mu", [2, 2])]⟩⟩ := by rfl
  obtain ⟨hlists, -, hproduct, -⟩ := identities_of_observeAll ht
  refine ⟨_, ht, rfl, rfl, rfl, fun statement => ?_, fun j statement hcheck => ?_, ?_⟩
  · obtain ⟨ids, hids, -, -, hmem⟩ := hlists "mu" rfl
    cases hids
    exact ((hmem ⟨"mu", [2, 2]⟩ statement).mp (by decide)).2
  · obtain ⟨ids, hids, -, -, hmem⟩ := hlists "x" rfl
    cases hids
    exact List.not_mem_nil ((hmem ⟨"x", [1, j]⟩ statement).mpr ⟨rfl, hcheck⟩)
  · rw [(hproduct [2, 2]).1]
    rfl

end ShapeTable

end BayesGraph
