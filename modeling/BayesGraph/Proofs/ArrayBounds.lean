import Mathlib.Order.Bounds.Basic
import BayesGraph.Proofs.DataEntries
import BayesGraph.Proofs.StatementOrder

/-!
# Every reference lies in its array

Shapes grow while left-hand sides are registered, and indices of right-hand sides are resolved only
afterwards. An unrolled model has forgotten both walks, and still all its identities lie within the
shapes at the end: those that are defined, and those that occur anywhere in what defines them. An
array of data has the shape of its data, and any other array has, in each dimension, the greatest
index of a left-hand side.
-/

set_option autoImplicit false

namespace BayesGraph

open Outcome

/-- The identity stands in a parameter, in a truncation bound or in the expression of a meaning. -/
def Meaning.Mentions (m : Meaning) (id : Identity) : Prop :=
  ∃ e ∈ m.parts, e.Mentions id

/-- What a meaning mentions is one of its references. -/
theorem Meaning.Mentions.mem_refs {m : Meaning} {id : Identity} (h : m.Mentions id)
    {ids : List Identity} (hids : m.refs = .ok ids) : id ∈ ids := by
  obtain ⟨e, he, hmentions⟩ := h
  obtain ⟨part, hpart, hsub⟩ := Expr.refs_of_refsOfAll hids he
  exact hsub (hmentions.mem_refs hpart)

/-- The indices are positive, and if the shape of the array is known, there is one index for each
dimension, and it is no greater than the dimension. -/
def ShapeTable.Accommodates (t : ShapeTable) (id : Identity) : Prop :=
  (∀ i ∈ id.indices, 1 ≤ i) ∧ ∀ shape, t.shape? id.name = some shape →
    id.indices.length = shape.length ∧
    ∀ (d n : Nat) (i : Int), id.indices[d]? = some i → shape[d]? = some n → i ≤ n

namespace ShapeTable

variable {t : ShapeTable} {id : Identity}

/-- Indices that fit the shape of their variable are accommodated. -/
theorem accommodates_of_fits {shape : List Nat} (hshape : t.shape? id.name = some shape)
    (h : Fits id.indices shape) : t.Accommodates id := by
  obtain ⟨-, hpositive, -⟩ := fits_iff.mp h
  refine ⟨by simpa using hpositive, fun shape' hshape' => ?_⟩
  rw [hshape, Option.some.injEq] at hshape'
  subst hshape'
  exact ⟨h.length_eq, fun d n i hi hn => h.index_le hi hn⟩

/-- What passes the check of bounds is accommodated. -/
theorem accommodates_of_checkBounds {source : Option String} {u : Unit}
    (h : t.checkBounds id source = .ok u) : t.Accommodates id := by
  obtain ⟨hpositive, hfits⟩ := checkBounds_eq_ok_iff.mp h
  refine ⟨by simpa using hpositive, fun shape hshape => ?_⟩
  have h := hfits shape hshape
  exact ⟨h.length_eq, fun d n i hi hn => h.index_le hi hn⟩

/-- All identities that a table describes lie in their arrays, and these arrays are known. -/
theorem Describes.accommodates {data : Table String (List Nat)} {ids : List Identity}
    (h : t.Describes data ids) (hid : id ∈ ids) :
    (t.shape? id.name).isSome = true ∧ t.Accommodates id := by
  cases hshape : t.shape? id.name with
  | none => exact absurd rfl (h.of_none id.name hshape id hid)
  | some shape =>
    refine ⟨rfl, accommodates_of_fits hshape ?_⟩
    cases hdata : data.get? id.name with
    | none => exact (h.of_new id.name shape hdata hshape).fits id hid rfl
    | some fixed =>
      obtain ⟨hsame, hfits⟩ := h.of_data id.name fixed hdata
      rw [hshape, Option.some.injEq] at hsame
      subst hsame
      exact hfits id hid rfl

end ShapeTable

namespace ShapeTable

/-- Only the identities matter that a table describes, not their order. -/
theorem Describes.of_mem_iff {t : ShapeTable} {data : Table String (List Nat)}
    {ids ids' : List Identity} (h : t.Describes data ids) (hids : ∀ id, id ∈ ids' ↔ id ∈ ids) :
    t.Describes data ids' := by
  refine ⟨h.fixed, fun name shape hdata => ?_, fun name shape hdata hshape => ?_, ?_⟩
  · obtain ⟨hsame, hfits⟩ := h.of_data name shape hdata
    exact ⟨hsame, fun id hid => hfits id ((hids id).mp hid)⟩
  · obtain ⟨⟨id, hid, hname⟩, hfits, hattained⟩ := h.of_new name shape hdata hshape
    refine ⟨⟨id, (hids id).mpr hid, hname⟩, fun id' hid' => hfits id' ((hids id').mp hid'), ?_⟩
    intro d n hn
    obtain ⟨id', hid', hindex⟩ := hattained d n hn
    exact ⟨id', (hids id').mpr hid', hindex⟩
  · intro name hnone id hid
    exact h.of_none name hnone id ((hids id).mp hid)

end ShapeTable

/-- In each dimension, an extent is the greatest index that is used there. -/
theorem IsExtent.isGreatest {ids : List Identity} {name : String} {shape : List Nat}
    (h : IsExtent ids name shape) {d n : Nat} (hn : shape[d]? = some n) :
    IsGreatest {i : Int | ∃ id ∈ ids, id.name = name ∧ id.indices[d]? = some i} n := by
  refine ⟨h.attained d n hn, ?_⟩
  rintro i ⟨id, hid, hname, hi⟩
  exact (h.fits id hid hname).index_le hi hn

namespace Unrolled

variable {α : Type} [Scalar α] {m : Model} {bindings : Table String Datum}
  {functions : FunctionTable α} {u : Unrolled α}

/-- The shapes of an unrolled model describe what its definitions define. -/
theorem describes_of_make (h : make m bindings functions = .ok u) :
    u.shapes.Describes u.data.shapes (u.definitions.map (·.target)) := by
  obtain ⟨targets, -, -, hwalk, hdefinitions⟩ := make_eq_ok_iff.mp h
  obtain ⟨events, htrace⟩ := Stmt.walkAll_eq_ok_iff.mp hwalk
  have hsound : u.shapes.Describes u.data.shapes (targets.map (·.2)) :=
    (sound_of_trace htrace (sound_start u.data.shapes)).1
  rw [targets_of_mapM hdefinitions, List.map_reverse]
  exact hsound.of_mem_iff fun id => List.mem_reverse

/-- What a definition mentions was checked against the shapes at the end. -/
theorem accommodates_of_mentions (h : make m bindings functions = .ok u) {d : Definition}
    (hd : d ∈ u.definitions) {id : Identity} (hid : d.meaning.Mentions id) :
    u.shapes.Accommodates id := by
  obtain ⟨targets, -, -, -, hdefinitions⟩ := make_eq_ok_iff.mp h
  obtain ⟨t, -, ht⟩ := exists_of_mem_mapM hdefinitions hd
  obtain ⟨-, -, hrefs, -, hbounds⟩ := define_eq_ok ht
  exact ShapeTable.accommodates_of_checkBounds (hbounds id (hid.mem_refs hrefs))

/-- Every identity that an unrolled model defines or mentions lies in its array: its indices are
positive, and if the shape of the array is known, they are as many as it has dimensions and no
greater than these. An array of data has the shape of its data. The shape of any other array is
known if and only if the array is defined, and each dimension is then the greatest index of a
left-hand side there. -/
theorem shapes_of_make (hkeys : bindings.keys.Nodup) (h : make m bindings functions = .ok u) :
    (∀ d ∈ u.definitions, ∀ id, id = d.target ∨ d.meaning.Mentions id →
      u.shapes.Accommodates id) ∧
    (∀ d ∈ u.definitions, (u.shapes.shape? d.target.name).isSome = true) ∧
    (∀ name value, bindings.get? name = some value →
      ∃ shape, value.shape? = some shape ∧ u.shapes.shape? name = some shape) ∧
    ∀ name, bindings.get? name = none →
      ((u.shapes.shape? name).isSome = true ↔ ∃ d ∈ u.definitions, d.target.name = name) ∧
      ∀ shape, u.shapes.shape? name = some shape →
        (∀ d ∈ u.definitions, d.target.name = name → d.target.indices.length = shape.length) ∧
        ∀ (k n : Nat), shape[k]? = some n →
          IsGreatest {i : Int | ∃ d ∈ u.definitions, d.target.name = name ∧
            d.target.indices[k]? = some i} n := by
  have hdescribes := describes_of_make h
  obtain ⟨-, hflatten, -⟩ := make_eq_ok_iff.mp h
  obtain ⟨-, hshapes⟩ := Bindings.flatten_eq_ok hkeys hflatten
  have htarget : ∀ d ∈ u.definitions,
      (u.shapes.shape? d.target.name).isSome = true ∧ u.shapes.Accommodates d.target :=
    fun d hd => hdescribes.accommodates (List.mem_map_of_mem hd)
  refine ⟨?_, fun d hd => (htarget d hd).1, ?_, ?_⟩
  · rintro d hd id (rfl | hid)
    · exact (htarget d hd).2
    · exact accommodates_of_mentions h hd hid
  · intro name value hvalue
    have hcontains : u.data.shapes.contains name = true := by
      apply Bindings.contains_shapes hflatten
      rw [Table.contains, hvalue]
      rfl
    obtain ⟨shape, hshape⟩ := (Table.contains_iff _ _).mp hcontains
    refine ⟨shape, ?_, (hdescribes.of_data name shape hshape).1⟩
    rw [hshapes, hvalue] at hshape
    exact hshape
  · intro name hnone
    have hdata : u.data.shapes.get? name = none := by
      rw [hshapes, hnone]
      rfl
    refine ⟨⟨fun hsome => ?_, ?_⟩, fun shape hshape => ?_⟩
    · obtain ⟨shape, hshape⟩ := Option.isSome_iff_exists.mp hsome
      obtain ⟨id, hid, hname⟩ := (hdescribes.of_new name shape hdata hshape).used
      obtain ⟨d, hd, rfl⟩ := List.mem_map.mp hid
      exact ⟨d, hd, hname⟩
    · rintro ⟨d, hd, rfl⟩
      exact (htarget d hd).1
    · have hextent := hdescribes.of_new name shape hdata hshape
      refine ⟨fun d hd hname => (hextent.fits _ (List.mem_map_of_mem hd) hname).length_eq, ?_⟩
      intro k n hn
      have hgreatest := hextent.isGreatest hn
      simpa only [List.mem_map, exists_exists_and_eq_and] using hgreatest

/-! ## Indices that are data -/

/-- The rows of `x` are data, its columns are counted, and `y` depends on a slice of `x`. -/
def lookupModel : Model where
  statements :=
    [.loop [] (.text "i") (.range (.literal (.int 1)) (.literal (.int 2)))
      [.sample [] (.index (.text "x") [.index (.text "k") [.var (.text "i")], .var (.text "i")])
        (.dist { name := .text "dnorm", params := [.literal (.int 0), .literal (.int 1)] })],
    .sample [] (.var (.text "y"))
      (.dist { name := .text "dnorm", params :=
        [.call (.text "sum")
          [.index (.text "x") [.range (.literal (.int 2)) (.literal (.int 3)), .literal (.int 1)]],
        .literal (.int 1)] })]

/-- The rows of `x` that are used. -/
def lookupData : Table String Datum := ⟨[("k", .list [.int 3, .int 2])]⟩

/-- The rows by identity. -/
def lookupBindings : Bindings :=
  ⟨⟨[(⟨"k", [1]⟩, .int 3), (⟨"k", [2]⟩, .int 2)]⟩, ⟨[("k", [2])]⟩⟩

/-- The data are the only constants of the model. -/
theorem constants_lookupModel :
    Folding.constants (Registry.builtin : Registry Dual).foldingFunctions lookupModel.statements
      lookupBindings = .ok (lookupBindings.values.map fun n => n.map Scalar.ofDouble) := by
  unfold Folding.constants Folding.saturate
  rfl

/-- The rows `3` and `2` and the columns `1` and `2` make an array of three rows and two columns,
and the slice in it lies within, though one of its elements is not defined. -/
theorem shapes_lookupModel :
    lookupData.keys.Nodup ∧
    ∃ u, make lookupModel lookupData (Registry.builtin : Registry Dual).foldingFunctions = .ok u ∧
      u.shapes.shape? "x" = some [3, 2] ∧ u.shapes.shape? "k" = some [2] ∧
      (∀ d ∈ u.definitions, ∀ id, id = d.target ∨ d.meaning.Mentions id →
        u.shapes.Accommodates id) ∧
      IsGreatest {i : Int | ∃ d ∈ u.definitions, d.target.name = "x" ∧
        d.target.indices[0]? = some i} 3 := by
  obtain ⟨u, hu, hshape⟩ : ∃ u, make lookupModel lookupData
      (Registry.builtin : Registry Dual).foldingFunctions = .ok u ∧
        u.shapes.shape? "x" = some [3, 2] := by
    have hdata : Bindings.flatten lookupData = .ok lookupBindings := rfl
    rw [make_of_constants hdata constants_lookupModel]
    decide +kernel
  have hkeys : lookupData.keys.Nodup := by decide
  obtain ⟨hwithin, -, hdata, hother⟩ := shapes_of_make hkeys hu
  obtain ⟨shape, hk, hsame⟩ := hdata "k" _ rfl
  cases hk
  exact ⟨hkeys, u, hu, hshape, hsame, hwithin, ((hother "x" rfl).2 _ hshape).2 0 3 rfl⟩

end Unrolled

end BayesGraph
