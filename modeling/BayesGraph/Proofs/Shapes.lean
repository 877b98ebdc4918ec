import Mathlib.Data.List.Forall2
import BayesGraph.Proofs.Outcome
import BayesGraph.Proofs.Table
import BayesGraph.Shape

/-!
# The shapes that left-hand sides imply

An array that is not data is as large as the left-hand sides seen so far require: `IsExtent` says
so without any order among them. `ShapeTable.Describes` is the invariant of the registration of
left-hand sides, one after the other: shapes of data are fixed and contain all left-hand sides
beside them, and the shape of any other array is its extent.

So two tables that describe the same identities, seen in whatever order, have the same shapes.
-/

set_option autoImplicit false

namespace BayesGraph

open Outcome

/-- Indices that are positive and lie within a shape of their rank. -/
def Fits (indices : List Int) (shape : List Nat) : Prop :=
  List.Forall₂ (fun (i : Int) (n : Nat) => 1 ≤ i ∧ i ≤ (n : Int)) indices shape

/-- An index that fits is no greater than the size of its dimension. -/
theorem Fits.index_le {indices : List Int} {shape : List Nat} (h : Fits indices shape) {d n : Nat}
    {i : Int} (hi : indices[d]? = some i) (hn : shape[d]? = some n) : i ≤ n := by
  obtain ⟨hd, rfl⟩ := List.getElem?_eq_some_iff.mp hi
  obtain ⟨hd', rfl⟩ := List.getElem?_eq_some_iff.mp hn
  exact ((List.forall₂_iff_get.mp h).2 d hd hd').2

/-- The smallest shape that contains all identities of an array, of which there is at least one. -/
structure IsExtent (ids : List Identity) (name : String) (shape : List Nat) : Prop where
  used : ∃ id ∈ ids, id.name = name
  fits : ∀ id ∈ ids, id.name = name → Fits id.indices shape
  attained : ∀ (d n : Nat), shape[d]? = some n →
    ∃ id ∈ ids, id.name = name ∧ id.indices[d]? = some (n : Int)

namespace IsExtent

variable {ids ids' : List Identity} {name : String} {shape shape' : List Nat}

/-- With more identities, no dimension of an extent becomes smaller. -/
theorem le_of_subset (h : IsExtent ids name shape) (h' : IsExtent ids' name shape')
    (hids : ∀ id ∈ ids, id ∈ ids') {d n : Nat} (hn : shape[d]? = some n) :
    ∃ n', shape'[d]? = some n' ∧ n ≤ n' := by
  obtain ⟨id, hid, hname, hindex⟩ := h.attained d n hn
  have hfits := h'.fits id (hids id hid) hname
  have hd : d < id.indices.length := (List.getElem?_eq_some_iff.mp hindex).1
  have hn' := List.getElem?_eq_getElem (hfits.length_eq ▸ hd)
  have hle := hfits.index_le hindex hn'
  exact ⟨_, hn', by omega⟩

/-- All extents of an array have one rank. -/
theorem length_eq (h : IsExtent ids name shape) (h' : IsExtent ids' name shape')
    (hids : ∀ id ∈ ids, id ∈ ids') : shape.length = shape'.length := by
  obtain ⟨id, hid, hname⟩ := h.used
  rw [← (h.fits id hid hname).length_eq, (h'.fits id (hids id hid) hname).length_eq]

/-- Identities of other arrays do not matter. -/
theorem cons_of_ne (h : IsExtent ids name shape) {id : Identity} (hname : id.name ≠ name) :
    IsExtent (id :: ids) name shape := by
  refine ⟨?_, List.forall_mem_cons.mpr ⟨fun heq => absurd heq hname, h.fits⟩, fun d n hn => ?_⟩
  · obtain ⟨id', hid', hname'⟩ := h.used
    exact ⟨id', List.mem_cons_of_mem id hid', hname'⟩
  · obtain ⟨id', hid', hindex⟩ := h.attained d n hn
    exact ⟨id', List.mem_cons_of_mem id hid', hindex⟩

/-- The extent depends only on which identities there are. -/
theorem unique (h : IsExtent ids name shape) (h' : IsExtent ids' name shape')
    (hids : ∀ id, id ∈ ids ↔ id ∈ ids') : shape = shape' := by
  have hlen := h.length_eq h' fun id hid => (hids id).mp hid
  refine List.ext_getElem hlen fun d hd hd' => ?_
  obtain ⟨n', hn', hle⟩ := h.le_of_subset h' (fun id hid => (hids id).mp hid)
    (List.getElem?_eq_getElem hd)
  obtain ⟨n, hn, hge⟩ := h'.le_of_subset h (fun id hid => (hids id).mpr hid)
    (List.getElem?_eq_getElem hd')
  rw [List.getElem?_eq_getElem hd', Option.some.injEq] at hn'
  rw [List.getElem?_eq_getElem hd, Option.some.injEq] at hn
  omega

end IsExtent

/-! ## Positive indices and joined shapes -/

/-- Positive indices fit the shape that ends with them. -/
theorem fits_toNat {indices : List Int} (h : ∀ i ∈ indices, 1 ≤ i) :
    Fits indices (indices.map Int.toNat) := by
  induction indices with
  | nil => exact .nil
  | cons i is ih =>
    have hi := h i List.mem_cons_self
    refine .cons ⟨hi, by omega⟩ (ih fun j hj => h j (List.mem_cons_of_mem i hj))

/-- Indices fit into a shape exactly if the checks of a shape table say so. -/
theorem fits_iff {indices : List Int} {shape : List Nat} :
    Fits indices shape ↔ shape.length = indices.length ∧ indices.all (1 ≤ ·) = true ∧
      ShapeTable.within indices shape = true := by
  induction indices generalizing shape with
  | nil => cases shape <;> simp [Fits, ShapeTable.within]
  | cons i is ih =>
    cases shape with
    | nil => simp [Fits]
    | cons n ns =>
      have hrest := @ih ns
      unfold Fits ShapeTable.within at hrest ⊢
      rw [List.forall₂_cons, hrest]
      simp only [List.length_cons, List.all_cons, List.zip_cons_cons, Bool.and_eq_true,
        decide_eq_true_eq, Nat.add_right_cancel_iff]
      constructor
      · rintro ⟨⟨hi, hn⟩, hlen, hall, hwithin⟩
        exact ⟨hlen, ⟨hi, hall⟩, hn, hwithin⟩
      · rintro ⟨hlen, ⟨hi, hall⟩, hn, hwithin⟩
        exact ⟨⟨hi, hn⟩, hlen, hall, hwithin⟩

/-- The index tuples of an array are those that fit into its shape. -/
theorem mem_indexProduct_iff {is shape : List Nat} :
    is ∈ indexProduct shape ↔ Fits (is.map Int.ofNat) shape := by
  induction shape generalizing is with
  | nil =>
    cases is with
    | nil => exact iff_of_true (List.mem_singleton_self []) .nil
    | cons i is => simp [indexProduct, Fits]
  | cons n shape ih =>
    rw [indexProduct]
    constructor
    · intro h
      obtain ⟨k, hk, h⟩ := List.mem_flatMap.mp h
      obtain ⟨rest, hmem, rfl⟩ := List.mem_map.mp h
      have hlt := List.mem_range.mp hk
      rw [List.map_cons, Int.ofNat_eq_natCast]
      exact .cons ⟨by omega, by omega⟩ (ih.mp hmem)
    · intro h
      cases is with
      | nil => cases h
      | cons i is =>
        rw [List.map_cons, Int.ofNat_eq_natCast] at h
        obtain ⟨⟨hpositive, hle⟩, h⟩ := List.forall₂_cons.mp h
        -- the tuples with the first index `i` are the block with number `i - 1`
        refine List.mem_flatMap.mpr ⟨i - 1, List.mem_range.mpr (by omega), ?_⟩
        rw [Nat.sub_add_cancel (by omega)]
        exact List.mem_map_of_mem (ih.mpr h)

/-- Indices that fit into a shape are one of its tuples. -/
theorem Fits.exists_mem_indexProduct {indices : List Int} {shape : List Nat}
    (h : Fits indices shape) : ∃ is ∈ indexProduct shape, is.map Int.ofNat = indices := by
  have hpositive : ∀ i ∈ indices, 1 ≤ i := by simpa using (fits_iff.mp h).2.1
  have hindices : (indices.map Int.toNat).map Int.ofNat = indices := by
    rw [List.map_map]
    refine (List.map_congr_left fun i hi => ?_).trans (List.map_id indices)
    exact Int.toNat_of_nonneg (by have := hpositive i hi; omega)
  exact ⟨_, mem_indexProduct_iff.mpr (hindices.symm ▸ h), hindices⟩

/-- What fits into a shape fits into every join with it. -/
theorem Fits.join_left {indices : List Int} {shape more : List Nat} (h : Fits indices shape)
    (hlen : more.length = shape.length) : Fits indices (ShapeTable.join shape more) := by
  induction h generalizing more with
  | nil => exact .nil
  | @cons i n is ns hi _ ih =>
    cases more with
    | nil => simp at hlen
    | cons k ks =>
      refine .cons ⟨hi.1, ?_⟩ (ih (by simpa using hlen))
      have := hi.2
      omega

/-- Which of two shapes comes first does not matter for the larger one. -/
theorem join_comm (a b : List Nat) : ShapeTable.join a b = ShapeTable.join b a :=
  List.zipWith_comm_of_comm Nat.max_comm

namespace ShapeTable

variable {t t' : ShapeTable} {id : Identity} {source : Option String}

/-! ## One more left-hand side -/

/-- The rank of an identity is accepted if its indices are positive and as many as the shape of
its array has dimensions. -/
theorem checkRank_eq_ok_iff {u : Unit} :
    t.checkRank id source = .ok u ↔ id.indices.all (1 ≤ ·) = true ∧
      ∀ shape, t.shape? id.name = some shape → shape.length = id.indices.length := by
  unfold checkRank
  cases t.shape? id.name with
  | none => by_cases hpositive : id.indices.all (1 ≤ ·) = true <;> simp [hpositive]
  | some shape =>
    by_cases hlen : shape.length = id.indices.length
    · by_cases hpositive : id.indices.all (1 ≤ ·) = true <;> simp [hlen, hpositive]
    · simp [hlen]

/-- An identity is accepted if it fits into the shape of its array, should that be known. -/
theorem checkBounds_eq_ok_iff {u : Unit} :
    t.checkBounds id source = .ok u ↔ id.indices.all (1 ≤ ·) = true ∧
      ∀ shape, t.shape? id.name = some shape → Fits id.indices shape := by
  unfold checkBounds
  simp only [bind_eq_ok, checkRank_eq_ok_iff, fits_iff]
  split
  · next hnone => simp [hnone]
  · next shape hshape =>
    rw [hshape]
    split
    · next hwithin => simp_all
    · next hwithin => simp_all

/-- An error of shapes about an identity and its statement. -/
structure Refuses (id : Identity) (statement : Option String) (e : CompileError) : Prop where
  errorClass : e.cause.errorClass = .shape
  identity : e.identity = some id
  statement : e.statement = statement

/-- The check of the rank refuses only the identity that it is about. -/
theorem failsWith_checkRank (t : ShapeTable) (id : Identity) (statement : Option String) :
    FailsWith (Refuses id statement) (t.checkRank id statement) := by
  have hpositive : FailsWith (Refuses id statement)
      (if id.indices.all (1 ≤ ·) then (.ok () : Except CompileError Unit)
        else .error ⟨.nonPositiveIndex, some id, statement⟩) := by
    split
    · exact .ok _
    · exact .error ⟨rfl, rfl, rfl⟩
  unfold checkRank
  dsimp only
  split
  · exact hpositive
  · split
    · exact hpositive
    · exact .error ⟨rfl, rfl, rfl⟩

/-- The check of the bounds refuses only the identity that it is about. -/
theorem failsWith_checkBounds (t : ShapeTable) (id : Identity) (statement : Option String) :
    FailsWith (Refuses id statement) (t.checkBounds id statement) := by
  unfold checkBounds
  refine (t.failsWith_checkRank id statement).bind fun _ => ?_
  split
  · exact .pure _
  · split
    · exact .pure _
    · exact .error ⟨rfl, rfl, rfl⟩

/-- A left-hand side that is not registered is refused by one of the checks. -/
theorem failsWith_observe (t : ShapeTable) (id : Identity) (statement : Option String) :
    FailsWith (Refuses id statement) (t.observe id statement) := by
  unfold observe
  refine (t.failsWith_checkRank id statement).bind fun _ => ?_
  split
  · exact (t.failsWith_checkBounds id statement).bind fun _ => .pure _
  · exact .pure _

/-- The shape that an array has after a left-hand side was registered. -/
def grown (shape : Option (List Nat)) (indices : List Int) : List Nat :=
  match shape with
  | none => indices.map Int.toNat
  | some shape => join shape (indices.map Int.toNat)

/-- When a left-hand side is registered, and what becomes of the table. -/
theorem observe_eq_ok_iff : t.observe id source = .ok t' ↔
    id.indices.all (1 ≤ ·) = true ∧
      (∀ shape, t.shape? id.name = some shape → shape.length = id.indices.length) ∧
      if t.fixed.contains id.name then
        t' = t ∧ ∀ shape, t.shape? id.name = some shape → Fits id.indices shape
      else t' = { t with
        shapes := t.shapes.insert id.name (grown (t.shape? id.name) id.indices) } := by
  unfold observe
  simp only [bind_eq_ok, checkRank_eq_ok_iff]
  split
  · simp only [bind_eq_ok, checkBounds_eq_ok_iff, pure_eq_ok]
    constructor
    · rintro ⟨-, ⟨hpositive, hrank⟩, -, ⟨-, hfits⟩, rfl⟩
      exact ⟨hpositive, hrank, rfl, hfits⟩
    · rintro ⟨hpositive, hrank, rfl, hfits⟩
      exact ⟨(), ⟨hpositive, hrank⟩, (), ⟨hpositive, hfits⟩, rfl⟩
  · simp only [pure_eq_ok]
    constructor
    · rintro ⟨-, ⟨hpositive, hrank⟩, rfl⟩
      refine ⟨hpositive, hrank, ?_⟩
      cases t.shape? id.name <;> rfl
    · rintro ⟨hpositive, hrank, rfl⟩
      refine ⟨(), ⟨hpositive, hrank⟩, ?_⟩
      cases t.shape? id.name <;> rfl

/-! ## All left-hand sides -/

/-- A table that comes from registering some identities beside the shapes of data. -/
structure Describes (t : ShapeTable) (data : Table String (List Nat)) (ids : List Identity) :
    Prop where
  fixed : t.fixed = data
  of_data : ∀ name shape, data.get? name = some shape →
    t.shape? name = some shape ∧ ∀ id ∈ ids, id.name = name → Fits id.indices shape
  of_new : ∀ name shape, data.get? name = none → t.shape? name = some shape →
    IsExtent ids name shape
  of_none : ∀ name, t.shape? name = none → ∀ id ∈ ids, id.name ≠ name

variable {data : Table String (List Nat)} {ids ids' : List Identity}

/-- Before any left-hand side, a table describes nothing beside the data. -/
theorem describes_ofData (data : Table String (List Nat)) : (ofData data).Describes data [] := by
  refine ⟨rfl, fun name shape h => ⟨h, by simp⟩, fun name shape hnone h => ?_, by simp⟩
  change data.get? name = some shape at h
  rw [hnone] at h
  cases h

/-- An extent grows to contain one more identity. -/
theorem isExtent_grown {name : String} {shape : Option (List Nat)}
    (hnone : shape = none → ∀ id ∈ ids, id.name ≠ name)
    (hsome : ∀ s, shape = some s → IsExtent ids name s ∧ s.length = id.indices.length)
    (hname : id.name = name) (hpositive : ∀ i ∈ id.indices, 1 ≤ i) :
    IsExtent (id :: ids) name (grown shape id.indices) := by
  have hself := fits_toNat hpositive
  cases shape with
  | none =>
    refine ⟨⟨id, List.mem_cons_self, hname⟩, fun id' hid' hname' => ?_, fun d n hn => ?_⟩
    · rcases List.mem_cons.mp hid' with rfl | hid'
      · exact hself
      · exact absurd hname' (hnone rfl id' hid')
    · unfold grown at hn
      rw [List.getElem?_map, Option.map_eq_some_iff] at hn
      obtain ⟨i, hi, rfl⟩ := hn
      have hi1 := hpositive i (List.mem_of_getElem? hi)
      exact ⟨id, List.mem_cons_self, hname, by rw [hi, Int.toNat_of_nonneg (by omega)]⟩
  | some s =>
    obtain ⟨hs, hlen⟩ := hsome s rfl
    have hlen' : (id.indices.map Int.toNat).length = s.length := by
      rw [List.length_map, hlen]
    refine ⟨⟨id, List.mem_cons_self, hname⟩, fun id' hid' hname' => ?_, fun d n hn => ?_⟩
    · unfold grown
      rcases List.mem_cons.mp hid' with rfl | hid'
      · dsimp only
        rw [join_comm]
        exact hself.join_left hlen'.symm
      · exact (hs.fits id' hid' hname').join_left hlen'
    · -- the larger of the two lengths is attained where it comes from
      unfold grown join at hn
      dsimp only at hn
      rw [List.getElem?_zipWith_eq_some] at hn
      obtain ⟨k, j, hk, hj, rfl⟩ := hn
      rw [List.getElem?_map, Option.map_eq_some_iff] at hj
      obtain ⟨i, hi, rfl⟩ := hj
      have hi1 := hpositive i (List.mem_of_getElem? hi)
      by_cases hle : k ≤ i.toNat
      · refine ⟨id, List.mem_cons_self, hname, ?_⟩
        rw [hi, Nat.max_eq_right hle, Int.toNat_of_nonneg (by omega)]
      · obtain ⟨id', hid', hname', hindex⟩ := hs.attained d k hk
        refine ⟨id', List.mem_cons_of_mem id hid', hname', ?_⟩
        rw [hindex, Nat.max_eq_left (by omega)]

/-- The shapes of the other arrays stay when a left-hand side is registered. -/
theorem shape?_observe_of_ne (hobserve : t.observe id source = .ok t') {name : String}
    (hname : id.name ≠ name) : t'.shape? name = t.shape? name := by
  obtain ⟨-, -, hnext⟩ := observe_eq_ok_iff.mp hobserve
  split at hnext
  · rw [hnext.1]
  · rw [hnext]
    exact Table.get?_insert_of_ne _ _ hname

/-- One more left-hand side is described afterwards. -/
theorem Describes.observe (h : t.Describes data ids) (hobserve : t.observe id source = .ok t') :
    t'.Describes data (id :: ids) := by
  obtain ⟨hpositive, hrank, hnext⟩ := observe_eq_ok_iff.mp hobserve
  have hpositive' : ∀ i ∈ id.indices, 1 ≤ i := by simpa using hpositive
  -- Only data have fixed shapes, and observing an identity fixes none.
  have hfixed : t'.fixed = t.fixed := by
    split at hnext
    · rw [hnext.1]
    · rw [hnext]
  rw [h.fixed] at hnext hfixed
  refine ⟨hfixed, fun name shape hshape => ?_, fun name shape hnone hshape => ?_,
    fun name hnone => ?_⟩
  · obtain ⟨hsame, hids⟩ := h.of_data name shape hshape
    have hcontains : data.contains name = true := (Table.contains_iff data name).mpr ⟨shape, hshape⟩
    by_cases hname : id.name = name
    · subst hname
      rw [if_pos hcontains] at hnext
      rw [hnext.1]
      exact ⟨hsame, List.forall_mem_cons.mpr ⟨fun _ => hnext.2 shape hsame, hids⟩⟩
    · rw [shape?_observe_of_ne hobserve hname]
      exact ⟨hsame, List.forall_mem_cons.mpr ⟨fun heq => absurd heq hname, hids⟩⟩
  · by_cases hname : id.name = name
    · subst hname
      rw [if_neg (by simp [Table.contains, hnone])] at hnext
      rw [hnext] at hshape
      have hgrown : some (grown (t.shape? id.name) id.indices) = some shape :=
        (Table.get?_insert_self t.shapes id.name _).symm.trans hshape
      rw [← Option.some.inj hgrown]
      exact isExtent_grown (h.of_none id.name)
        (fun s hs => ⟨h.of_new id.name s hnone hs, hrank s hs⟩) rfl hpositive'
    · rw [shape?_observe_of_ne hobserve hname] at hshape
      exact (h.of_new name shape hnone hshape).cons_of_ne hname
  · have hname : id.name ≠ name := by
      rintro rfl
      split at hnext
      · next hdata =>
        obtain ⟨shape, hshape⟩ := (Table.contains_iff data id.name).mp hdata
        rw [hnext.1, (h.of_data _ shape hshape).1] at hnone
        cases hnone
      · rw [hnext] at hnone
        unfold shape? at hnone
        simp at hnone
    rw [shape?_observe_of_ne hobserve hname] at hnone
    exact List.forall_mem_cons.mpr ⟨hname, h.of_none name hnone⟩

/-- An array without data has the same shape in tables that describe the same identities. -/
theorem Describes.shape?_eq_of_new {data' : Table String (List Nat)} (h : t.Describes data ids)
    (h' : t'.Describes data' ids') (hids : ∀ id, id ∈ ids ↔ id ∈ ids') {name : String}
    (hdata : data.get? name = none) (hdata' : data'.get? name = none) :
    t.shape? name = t'.shape? name := by
  cases hshape : t.shape? name with
  | some shape =>
    have hextent := h.of_new name shape hdata hshape
    cases hshape' : t'.shape? name with
    | some shape' => rw [hextent.unique (h'.of_new name shape' hdata' hshape') hids]
    | none =>
      obtain ⟨id, hid, hname⟩ := hextent.used
      exact absurd hname (h'.of_none name hshape' id ((hids id).mp hid))
  | none =>
    cases hshape' : t'.shape? name with
    | none => rfl
    | some shape' =>
      obtain ⟨id, hid, hname⟩ := (h'.of_new name shape' hdata' hshape').used
      exact absurd hname (h.of_none name hshape id ((hids id).mpr hid))

/-- Tables that describe the same identities have the same shapes. -/
theorem Describes.shape?_eq (h : t.Describes data ids) (h' : t'.Describes data ids')
    (hids : ∀ id, id ∈ ids ↔ id ∈ ids') (name : String) : t.shape? name = t'.shape? name := by
  cases hdata : data.get? name with
  | some shape => rw [(h.of_data name shape hdata).1, (h'.of_data name shape hdata).1]
  | none => exact h.shape?_eq_of_new h' hids hdata hdata

/-- Whatever is described in the end can be registered at any time before. -/
theorem Describes.exists_observe (h : t.Describes data ids) (h' : t'.Describes data ids')
    (hids : ∀ id ∈ ids, id ∈ ids') (hid : id ∈ ids') (source : Option String) :
    ∃ next, t.observe id source = .ok next := by
  have hfits : ∀ shape, t'.shape? id.name = some shape → Fits id.indices shape := by
    intro shape hshape
    cases hdata : data.get? id.name with
    | none => exact (h'.of_new _ shape hdata hshape).fits id hid rfl
    | some own =>
      obtain ⟨hsame, hown⟩ := h'.of_data _ own hdata
      rw [hsame, Option.some.injEq] at hshape
      exact hshape ▸ hown id hid rfl
  obtain ⟨final, hfinal⟩ : ∃ shape, t'.shape? id.name = some shape := by
    cases hnone : t'.shape? id.name with
    | none => exact absurd rfl (h'.of_none id.name hnone id hid)
    | some shape => exact ⟨shape, rfl⟩
  have hpositive : id.indices.all (1 ≤ ·) = true := (fits_iff.mp (hfits final hfinal)).2.1
  have hrank : ∀ shape, t.shape? id.name = some shape → shape.length = id.indices.length := by
    intro shape hshape
    rw [(hfits final hfinal).length_eq]
    cases hdata : data.get? id.name with
    | none => exact (h.of_new _ shape hdata hshape).length_eq (h'.of_new _ final hdata hfinal) hids
    | some own =>
      rw [(h.of_data _ own hdata).1] at hshape
      rw [(h'.of_data _ own hdata).1] at hfinal
      rw [← hshape.symm.trans hfinal |> Option.some.inj]
  by_cases hdata : data.contains id.name = true
  · refine ⟨t, observe_eq_ok_iff.mpr ⟨hpositive, hrank, ?_⟩⟩
    rw [h.fixed, if_pos hdata]
    obtain ⟨own, hown⟩ := (Table.contains_iff data id.name).mp hdata
    refine ⟨rfl, fun shape hshape => hfits shape ?_⟩
    rw [← hshape, (h.of_data _ own hown).1, (h'.of_data _ own hown).1]
  · have hnew : ¬ t.fixed.contains id.name = true := h.fixed ▸ hdata
    exact ⟨_, observe_eq_ok_iff.mpr ⟨hpositive, hrank, (if_neg hnew).mpr rfl⟩⟩

end ShapeTable

end BayesGraph
