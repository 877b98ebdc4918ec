import BayesGraph.Proofs.DataEntries
import BayesGraph.Proofs.ExactReals
import BayesGraph.Proofs.ResolvedForms
import BayesGraph.Proofs.Rounding
import BayesGraph.Proofs.Substitution

/-!
# Slices of data

An indexed array of data stands for the block of it that its indices select: a scalar index picks
one position and drops its dimension, a range keeps the positions from its start to its stop, and an
empty slot keeps the whole dimension. `Selector.place` says where an entry of the block lies in the
array. The resolved expression has the shape of the block, and at every position of the block its
value has the entry that the nested lists of the data have at that place (`eval_slice`).
-/

set_option autoImplicit false

namespace BayesGraph

open Outcome

/-! ## Numbers of the data as scalars -/

/-- The scalar of a number of the data. -/
def Number.scalar {α : Type} [Scalar α] : Number Double → α
  | .int n => Scalar.ofInt n
  | .real x => Scalar.ofDouble x

namespace Number

/-- An entry of the data is the machine number that was given, or zero in place of a negative
zero. -/
theorem scalar_ofDouble_dual (x : Double) :
    (ofDouble x).scalar = (Scalar.ofDouble (if x.isZero then Double.zero else x) : Dual) := by
  unfold ofDouble
  cases h : x.toInt? with
  | none =>
    have hzero : ¬ x.isZero = true := by
      intro hzero
      have hmantissa := Double.mantissa_eq_zero hzero
      rw [Double.isZero, Bool.and_eq_true, beq_iff_eq] at hzero
      simp [Double.toInt?, Double.isFinite, Double.numerator, hmantissa, hzero.1] at h
    rw [if_neg hzero]
    rfl
  | some n =>
    rw [← Double.ofInt_of_toInt? h]
    rfl

/-- An entry of the data is the real that was given. -/
theorem scalar_ofDouble_real (x : Double) : (ofDouble x).scalar = x.toReal := by
  unfold ofDouble
  cases h : x.toInt? with
  | none => rfl
  | some n =>
    show (Scalar.ofInt n : ℝ) = x.toReal
    rw [ExactReals.ofInt_eq, Double.toReal_of_toInt? h]

/-- A number of the data can be converted, since it is no larger than a double. -/
theorem ofNumber_ofDouble {α : Type} [Scalar α] (x : Double) :
    Value.ofNumber ((ofDouble x).map (Scalar.ofDouble : Double → α)) = .ok (ofDouble x).scalar := by
  unfold ofDouble
  cases h : x.toInt? with
  | none => rfl
  | some n =>
    have hfinite : (Double.ofInt n).isFinite = true := by
      rw [Double.ofInt_of_toInt? h]
      split
      · decide
      · exact (Double.of_toInt? h).1
    show Value.ofInt n = _
    unfold Value.ofInt Double.ofInt?
    rw [if_pos hfinite]
    rfl

end Number

/-! ## Positions in an array -/

namespace Tensor

/-- The number of a position, which is counted from zero in row-major order. -/
def offset? : List Nat → List Nat → Option Nat
  | [], [] => some 0
  | n :: shape, j :: js => if j < n then (offset? shape js).map (j * volume shape + ·) else none
  | _, _ => none

/-- The entry of an array at a position, which has one number for each dimension, counted from
zero. -/
def entry? {α : Type} (t : Tensor α) (position : List Nat) : Option α :=
  (offset? t.shape position).bind (t.entries[·]?)

/-- Every position within a shape has a number. -/
theorem offset?_of_forall₂ {shape js : List Nat} (h : List.Forall₂ (· < ·) js shape) :
    ∃ k, offset? shape js = some k ∧ k < volume shape := by
  induction h with
  | nil => exact ⟨0, rfl, Nat.one_pos⟩
  | @cons j n js shape hj _ ih =>
    obtain ⟨k, hk, hlt⟩ := ih
    refine ⟨j * volume shape + k, ?_, ?_⟩
    · rw [offset?, if_pos hj, hk, Option.map_some]
    · have hmul := Nat.mul_le_mul_right (volume shape) (Nat.succ_le_of_lt hj)
      rw [Nat.succ_mul] at hmul
      rw [volume_cons]
      omega

end Tensor

/-- The shape of an array holds the position, whose indices are counted from one. -/
def Lies (indices : List Int) (shape : List Nat) : Prop :=
  List.Forall₂ (fun (i : Int) (n : Nat) => 1 ≤ i ∧ i ≤ n) indices shape

/-- Every entry is a number, and none of them is missing. -/
def Datum.Complete (d : Datum) : Prop :=
  ∀ item ∈ d.leaves, ∃ x, item.entry = .ok x ∧ x.isNaN = false

/-- A complete array has a number at each position of its shape. -/
theorem Datum.Complete.exists_number {d : Datum} (h : d.Complete) {shape : List Nat}
    (hshape : d.shape? = some shape) {indices : List Int} (hlies : Lies indices shape) :
    ∃ item x, d.at? indices = some item ∧ item.entry = .ok x ∧
      d.number? indices = some (Number.ofDouble x) := by
  obtain ⟨js, hjs, rfl⟩ := Fits.exists_mem_indexProduct hlies
  have hlength : (indexProduct shape).length = d.leaves.length := by
    rw [length_indexProduct, Datum.length_leaves d hshape]
  rw [← List.map_fst_zip (Nat.le_of_eq hlength)] at hjs
  obtain ⟨⟨js, item⟩, hzip, rfl⟩ := List.mem_map.mp hjs
  obtain ⟨x, hx, hnan⟩ := h item (List.of_mem_zip hzip).2
  have hitem := (Datum.mem_zip_leaves d hshape).mp hzip
  refine ⟨item, x, hitem, hx, ?_⟩
  rw [Datum.number?, hitem, Option.bind_some, hx]
  simp [hnan]

/-! ## What indices select -/

/-- What an index selects in its dimension: one position, or the positions from `lo` to `hi`. -/
inductive Selector where
  | single (i : Int)
  | span (lo hi : Int)

namespace Selector

/-- All positions that the index selects. -/
def positions : Selector → List Int
  | .single i => [i]
  | .span lo hi => integersBetween lo hi

/-- The shape of the selected block. Dimensions in which one position is picked are dropped. -/
def shape : List Selector → List Nat
  | [] => []
  | .single _ :: rest => shape rest
  | .span lo hi :: rest => (hi + 1 - lo).toNat :: shape rest

/-- The indices of the entry that stands at a position of the selected block, which is counted from
zero. -/
def place : List Selector → List Nat → List Int
  | .single i :: rest, js => i :: place rest js
  | .span lo _ :: rest, j :: js => (lo + j) :: place rest js
  | _, _ => []

/-- The integers between two bounds are counted from the lower one. -/
theorem getElem?_integersBetween {lo hi : Int} {j : Nat} (h : j < (hi + 1 - lo).toNat) :
    (integersBetween lo hi)[j]? = some (lo + j) := by
  simp [integersBetween, h]

/-- Between two bounds there are as many integers as their distance allows. -/
theorem length_integersBetween (lo hi : Int) :
    (integersBetween lo hi).length = (hi + 1 - lo).toNat := by
  simp [integersBetween]

/-- There are as many selections as the block has entries. -/
theorem length_selections (selectors : List Selector) :
    (selections (selectors.map positions)).length = Tensor.volume (shape selectors) := by
  rw [Context.length_selections]
  induction selectors with
  | nil => rfl
  | cons selector rest ih =>
    cases selector with
    | single i => simpa [positions, shape] using ih
    | span lo hi => simp [positions, shape, length_integersBetween, ← ih]

/-- The selections stand in row-major order of the positions of the block. -/
theorem getElem?_selections {selectors : List Selector} {js : List Nat} {k : Nat}
    (h : Tensor.offset? (shape selectors) js = some k) :
    (selections (selectors.map positions))[k]? = some (place selectors js) := by
  induction selectors generalizing js k with
  | nil =>
    cases js with
    | nil =>
      cases h
      rfl
    | cons j js => cases h
  | cons selector rest ih =>
    cases selector with
    | single i =>
      have hrest := ih h
      simp only [List.map_cons, positions, selections, List.flatMap_cons, List.flatMap_nil,
        List.append_nil, List.getElem?_map, hrest]
      rfl
    | span lo hi =>
      cases js with
      | nil => cases h
      | cons j js =>
        rw [shape, Tensor.offset?] at h
        split at h
        · next hj =>
          obtain ⟨k, hk, rfl⟩ := Option.map_eq_some_iff.mp h
          have hlength : ∀ p : Int, ((selections (rest.map positions)).map (p :: ·)).length =
              Tensor.volume (shape rest) := by
            intro p
            rw [List.length_map, length_selections]
          have hlt : k < Tensor.volume (shape rest) := by
            rw [← length_selections]
            exact (List.getElem?_eq_some_iff.mp (ih hk)).1
          rw [List.map_cons, positions, selections,
            getElem?_flatMap_of_length hlength (getElem?_integersBetween hj) hlt,
            List.getElem?_map, ih hk]
          rfl
        · cases h

/-- A selection takes one position from each index. -/
theorem mem_selections {pss : List (List Int)} {is : List Int} :
    is ∈ selections pss ↔ List.Forall₂ (· ∈ ·) is pss := by
  induction pss generalizing is with
  | nil => simp [selections]
  | cons ps pss ih =>
    rw [selections, List.mem_flatMap]
    constructor
    · rintro ⟨p, hp, his⟩
      obtain ⟨rest, hrest, rfl⟩ := List.mem_map.mp his
      exact .cons hp (ih.mp hrest)
    · rintro (_ | ⟨hp, hrest⟩)
      exact ⟨_, hp, List.mem_map_of_mem (ih.mpr hrest)⟩

end Selector

namespace Context

variable {α : Type} [Scalar α] {ctx : Context α} {site : Site}

/-- The indices of an instance select a block that lies in an array of the given shape and has at
least one entry. -/
inductive Selects (ctx : Context α) (site : Site) : List Expr → List Nat → List Selector → Prop
  | nil : Selects ctx site [] [] []
  | single {e : Expr} {i : Int} {n : Nat} {indices : List Expr} {shape : List Nat}
      {selectors : List Selector} : e.isSlice = false → ctx.evalIndex site e = .ok i → 1 ≤ i →
      i ≤ n → Selects ctx site indices shape selectors →
      Selects ctx site (e :: indices) (n :: shape) (.single i :: selectors)
  | range {start stop : Expr} {lo hi : Int} {n : Nat} {indices : List Expr} {shape : List Nat}
      {selectors : List Selector} : ctx.evalIndex site start = .ok lo →
      ctx.evalIndex site stop = .ok hi → 1 ≤ lo → lo ≤ hi → hi ≤ n →
      Selects ctx site indices shape selectors →
      Selects ctx site (.range start stop :: indices) (n :: shape) (.span lo hi :: selectors)
  | colon {n : Nat} {indices : List Expr} {shape : List Nat} {selectors : List Selector} : 0 < n →
      Selects ctx site indices shape selectors →
      Selects ctx site (.colon :: indices) (n :: shape) (.span 1 n :: selectors)

section Selects

variable {indices : List Expr} {shape : List Nat} {selectors : List Selector}

/-- An integer between two bounds is between them. -/
theorem mem_integersBetween {lo hi i : Int} (h : i ∈ integersBetween lo hi) : lo ≤ i ∧ i ≤ hi := by
  obtain ⟨k, hk, rfl⟩ := List.mem_map.mp h
  rw [List.mem_range] at hk
  omega

/-- Everything that is selected lies in the array. -/
theorem Selects.lies (h : Selects ctx site indices shape selectors) {is : List Int}
    (his : is ∈ selections (selectors.map Selector.positions)) : Lies is shape := by
  rw [Selector.mem_selections] at his
  induction h generalizing is with
  | nil =>
    cases his
    exact .nil
  | single _ _ hlow hhigh _ ih =>
    rcases his with _ | ⟨hi, his⟩
    rw [Selector.positions, List.mem_singleton] at hi
    exact .cons (hi ▸ ⟨hlow, hhigh⟩) (ih his)
  | range _ _ hlow _ hhigh _ ih =>
    rcases his with _ | ⟨hi, his⟩
    have hbetween := mem_integersBetween hi
    exact .cons ⟨by omega, by omega⟩ (ih his)
  | colon _ _ ih =>
    rcases his with _ | ⟨hi, his⟩
    exact .cons (mem_integersBetween hi) (ih his)

/-- There are as many indices as dimensions. -/
theorem Selects.length_eq (h : Selects ctx site indices shape selectors) :
    indices.length = shape.length := by
  induction h with
  | nil => rfl
  | single _ _ _ _ _ ih | range _ _ _ _ _ _ ih | colon _ _ ih => simp [ih]

/-- Something is selected. -/
theorem Selects.volume_pos (h : Selects ctx site indices shape selectors) :
    0 < Tensor.volume (Selector.shape selectors) := by
  induction h with
  | nil => exact Nat.one_pos
  | single _ _ _ _ _ ih => exact ih
  | range _ _ _ hle _ _ ih => exact Nat.mul_pos (by omega) ih
  | colon hn _ ih => exact Nat.mul_pos (by omega) ih

/-- Within the bounds of a dimension a slice has the positions between its ends. -/
theorem slicePositions_eq {lo hi : Int} {n : Nat} (hlow : 1 ≤ lo) (hhigh : hi ≤ n)
    (hn : (n : Int) < Word.signedEnd) : slicePositions lo hi = .ok (integersBetween lo hi) := by
  unfold slicePositions
  rw [if_neg (by omega)]

/-- The positions of the indices are found, dimension by dimension; `d` dimensions have been
passed. -/
theorem Selects.positionsOf (h : Selects ctx site indices shape selectors) {name : String}
    {whole : List Nat} (hwhole : ctx.shapeOf name = .ok whole) {d : Nat}
    (hdrop : whole.drop d = shape) (hwords : ∀ n ∈ shape, (n : Int) < Word.signedEnd) :
    ctx.positionsOf site name whole.length d indices =
      .ok (selectors.map Selector.positions) := by
  induction h generalizing d with
  | nil => rfl
  | @single e i n indices shape selectors hslice hi _ _ _ ih =>
    have hrest := ih (tail_of_drop hdrop) (List.forall_mem_cons.mp hwords).2
    unfold evalIndex at hi
    rw [bind_eq_ok] at hi
    obtain ⟨resolved, hresolved, hi⟩ := hi
    rw [positionsOf_cons hslice, hresolved, ok_bind, hi, ok_bind, hrest]
    rfl
  | @range start stop lo hi n indices shape selectors hlo hhi hlow _ hhigh _ ih =>
    obtain ⟨hn, hwords⟩ := List.forall_mem_cons.mp hwords
    have hrest := ih (tail_of_drop hdrop) hwords
    unfold evalIndex at hlo hhi
    rw [bind_eq_ok] at hlo hhi
    obtain ⟨first, hfirst, hlo⟩ := hlo
    obtain ⟨last, hlast, hhi⟩ := hhi
    rw [Context.positionsOf, hfirst, ok_bind, hlo, ok_bind, hlast, ok_bind, hhi, ok_bind,
      slicePositions_eq hlow hhigh hn, ok_bind, hrest]
    rfl
  | @colon n indices shape selectors hn _ ih =>
    have hrest := ih (tail_of_drop hdrop) (List.forall_mem_cons.mp hwords).2
    have hdimension : whole[d]?.getD 0 = n := by
      rw [← List.head?_drop, hdrop]
      rfl
    have hpositions : ctx.wholeDimension site name d whole.length = .ok (integersBetween 1 n) := by
      simp [wholeDimension, hwhole, hdimension]
    rw [Context.positionsOf, hpositions, ok_bind, hrest]
    rfl

/-- The slices among the indices have the lengths of the shape. -/
theorem Selects.lengths (h : Selects ctx site indices shape selectors) :
    ((indices.zip (selectors.map Selector.positions)).filterMap fun p =>
      if p.1.isSlice then some p.2.length else none) = Selector.shape selectors := by
  induction h with
  | nil => rfl
  | single hslice _ _ _ _ ih => simpa [hslice, Selector.shape] using ih
  | range _ _ _ _ _ _ ih =>
    simpa [Expr.isSlice, Selector.shape, Selector.positions,
      Selector.length_integersBetween] using ih
  | colon _ _ ih =>
    simpa [Expr.isSlice, Selector.shape, Selector.positions,
      Selector.length_integersBetween] using ih

/-- Without slices, one place is selected. -/
theorem Selects.single_of_noSlice (h : Selects ctx site indices shape selectors)
    (hany : ¬ indices.any Expr.isSlice = true) :
    ∃ is, selections (selectors.map Selector.positions) = [is] ∧ Selector.shape selectors = [] ∧
      (selectors.map Selector.positions).filterMap List.head? = is := by
  induction h with
  | nil => exact ⟨[], rfl, rfl, rfl⟩
  | @single e i _ _ _ _ hslice _ _ _ _ ih =>
    obtain ⟨is, hselections, hshape, his⟩ := ih (by simpa [hslice] using hany)
    refine ⟨i :: is, ?_, hshape, ?_⟩
    · simp [Selector.positions, selections, hselections]
    · simp [Selector.positions, his]
  | range _ _ _ _ _ _ _ => simp [Expr.isSlice] at hany
  | colon _ _ _ => simp [Expr.isSlice] at hany

/-- The reference to a block has its shape, and a block without dimensions is one identity. -/
theorem Selects.reference (h : Selects ctx site indices shape selectors) (name : String) :
    (∃ is, selections (selectors.map Selector.positions) = [is] ∧
        Selector.shape selectors = [] ∧
        reference name indices (selectors.map Selector.positions) = .ref ⟨name, is⟩) ∨
      reference name indices (selectors.map Selector.positions) =
        .refArray ((selections (selectors.map Selector.positions)).map fun is => ⟨name, is⟩)
          (Selector.shape selectors) := by
  by_cases hany : indices.any Expr.isSlice = true
  · right
    unfold Context.reference
    rw [if_pos hany]
    exact congrArg (Expr.refArray _) h.lengths
  · left
    obtain ⟨is, hselections, hshape, his⟩ := h.single_of_noSlice hany
    refine ⟨is, hselections, hshape, ?_⟩
    unfold Context.reference
    rw [if_neg hany, his]

end Selects

/-- A block of identities has as many of them as its shape asks for. -/
theorem length_of_resolve_refArray {e : Expr} {ids : List Identity} {shape : List Nat}
    (h : ctx.resolve site e = .ok (.refArray ids shape)) : ids.length = Tensor.volume shape := by
  cases e with
  | index name indices =>
    rw [resolve] at h
    split at h
    · simp [Site.refuse_ne_ok] at h
    · simp only [bind_eq_ok, pure_eq_ok] at h
      obtain ⟨positions, hpositions, h⟩ := h
      unfold Context.reference at h
      split at h
      · cases h
        rw [volume_of_positions (length_positionsOf hpositions), List.length_map]
      · cases h
  | var name =>
    rw [resolve] at h
    split at h <;> cases h
  | literal _ => cases h
  | negate _ | add _ _ | sub _ _ | mul _ _ | div _ _ | pow _ _ | call _ _ =>
    simp [resolve] at h
  | colon | range _ _ | ref _ | refArray _ _ | raw _ | rawList _ =>
    simp [resolve, Site.refuse_ne_ok] at h

end Context

/-! ## The value of a slice -/

section Evaluation

variable {α : Type} [Scalar α] {rules : Rules} {mode : CallMode} {functions : FunctionTable α}
  {l : Identity → Except EvalError (Value α)}

/-- Scalars that are stacked are the entries of the array. -/
theorem Value.block_scalars {ys : List α} {shape : List Nat} (hne : ys ≠ [])
    (hvolume : ys.length = Tensor.volume shape) :
    Value.block rules (ys.map fun y => Value.array rules (.scalar y)) shape =
      .ok (.array rules ⟨shape, ys, hvolume⟩) := by
  have htensors : (ys.map fun y => Value.array rules (.scalar y)).mapM Value.toTensor =
      .ok (ys.map Tensor.scalar) := by
    rw [mapM_eq_ok, List.forall₂_map_left_iff, List.forall₂_map_right_iff, List.forall₂_same]
    exact fun y _ => rfl
  cases ys with
  | nil => exact absurd rfl hne
  | cons y rest =>
    have hrest : ∀ u ∈ rest.map Tensor.scalar, u.shape = (Tensor.scalar y).shape := by
      intro u hu
      obtain ⟨z, -, rfl⟩ := List.mem_map.mp hu
      rfl
    have hentries : (((Tensor.scalar y) :: rest.map Tensor.scalar).map (·.entries)).flatten =
        y :: rest := by
      rw [← List.map_cons, List.map_map]
      exact List.flatMap_singleton' (y :: rest)
    have hreshape : Tensor.volume shape =
        Tensor.volume ((Tensor.scalar y :: rest.map Tensor.scalar).length ::
          (Tensor.scalar y).shape) := by
      rw [← hvolume]
      simp [Tensor.scalar]
    unfold Value.block
    rw [htensors, ok_bind, List.map_cons]
    unfold Tensor.stack?
    dsimp only
    rw [dif_pos hrest]
    dsimp only
    unfold Tensor.reshape?
    rw [dif_pos hreshape]
    dsimp only
    congr

/-- A block of identities of known numbers has the array of these numbers as its value. -/
theorem Expr.eval_refArray {ids : List Identity} {shape : List Nat} {ys : List α}
    (h : List.Forall₂ (fun id y => ∃ v, l id = .ok v ∧ v.toTensor = .ok (.scalar y)) ids ys)
    (hne : ys ≠ []) (hvolume : ys.length = Tensor.volume shape) :
    (Expr.refArray ids shape).eval ⟨rules, mode, functions, l⟩ =
      .ok (.array rules ⟨shape, ys, hvolume⟩) := by
  have hvalues : (ids.mapM fun id => do
      let v ← l id
      return Value.array rules (← v.toTensor)) =
      .ok (ys.map fun y => Value.array rules (.scalar y)) := by
    rw [mapM_eq_ok, List.forall₂_map_right_iff]
    refine h.imp fun id y hid => ?_
    obtain ⟨v, hv, htensor⟩ := hid
    simp [hv, htensor]
  rw [eval]
  simp only [hvalues, ok_bind]
  exact Value.block_scalars hne hvolume

/-- A slice of data: the indices select a block of an array without missing entries, and the
flattened data is looked up. The reference that the indexed array is resolved to has the shape of
the block, and so has its value. The entry of the value at a position of the block is the entry of
the nested lists at `Selector.place`, as a scalar. Dimensions of data are words. Whatever an
expression is, a block that it is resolved to has as many identities as its shape asks for. -/
theorem eval_slice {bindings : Table String Datum} {data : Bindings} {name : Datum} {d : Datum}
    {shape : List Nat} {ctx : Context α} {site : Site} {indices : List Expr}
    {selectors : List Selector} (hkeys : bindings.keys.Nodup)
    (hflatten : Bindings.flatten bindings = .ok data) (hd : bindings.get? name.shown = some d)
    (hcomplete : d.Complete) (hshape : data.shapes.get? name.shown = some shape)
    (hwords : ∀ n ∈ shape, (n : Int) < Word.signedEnd)
    (hshapeOf : ctx.shapeOf name.shown = .ok shape) (hname : site.env.value? name = none)
    (hindices : ctx.Selects site indices shape selectors)
    (hl : ∀ id v, data.values.get? id = some v → l id = .ok (.number (v.map Scalar.ofDouble))) :
    (∃ e v t, ctx.resolve site (.index name indices) = .ok e ∧
      ((∃ id, e = .ref id) ∨ ∃ ids, e = .refArray ids (Selector.shape selectors)) ∧
      e.eval ⟨rules, mode, functions, l⟩ = .ok v ∧ v.toTensor = .ok t ∧
      t.shape = Selector.shape selectors ∧
      ∀ js, List.Forall₂ (· < ·) js t.shape → ∃ item x,
        d.at? (Selector.place selectors js) = some item ∧ item.entry = .ok x ∧
        t.entry? js = some (Number.ofDouble x).scalar) ∧
    ∀ {ctx : Context α} {site : Site} {e : Expr} {ids : List Identity} {dims : List Nat},
      ctx.resolve site e = .ok (.refArray ids dims) → ids.length = Tensor.volume dims := by
  obtain ⟨hvalues, hshapes⟩ := Bindings.flatten_eq_ok hkeys hflatten
  have hdshape : d.shape? = some shape := by
    rw [← hshape, hshapes, hd, Option.bind_some]
  have hresolve : ctx.resolve site (.index name indices) =
      .ok (Context.reference name.shown indices (selectors.map Selector.positions)) := by
    have hpositions := hindices.positionsOf hshapeOf (d := 0) rfl hwords
    rw [Context.resolve, hname, hindices.length_eq, hpositions]
    rfl
  -- every selected identity has a number
  have hnumbers : ∀ is ∈ selections (selectors.map Selector.positions), ∃ y : α,
      (∃ item x, d.at? is = some item ∧ item.entry = .ok x ∧ y = (Number.ofDouble x).scalar) ∧
        ∃ v, l ⟨name.shown, is⟩ = .ok v ∧ v.toTensor = .ok (.scalar y) := by
    intro is his
    obtain ⟨item, x, hitem, hx, hnumber⟩ := hcomplete.exists_number hdshape (hindices.lies his)
    have hgiven : data.values.get? ⟨name.shown, is⟩ = some (Number.ofDouble x) := by
      rw [hvalues, Bindings.given, hd, Option.bind_some, hnumber]
    refine ⟨_, ⟨item, x, hitem, hx, rfl⟩, _, hl _ _ hgiven, ?_⟩
    rw [Value.toTensor, Number.ofNumber_ofDouble]
    rfl
  obtain ⟨ys, hys⟩ := exists_forall₂ hnumbers
  have hlength : ys.length = Tensor.volume (Selector.shape selectors) := by
    rw [← hys.length_eq, Selector.length_selections]
  have hentries : ∀ js, List.Forall₂ (· < ·) js (Selector.shape selectors) → ∃ item x,
      d.at? (Selector.place selectors js) = some item ∧ item.entry = .ok x ∧
      Tensor.entry? ⟨Selector.shape selectors, ys, hlength⟩ js =
        some (Number.ofDouble x).scalar := by
    intro js hjs
    obtain ⟨k, hk, hlt⟩ := Tensor.offset?_of_forall₂ hjs
    obtain ⟨hbound, hplace⟩ := List.getElem?_eq_some_iff.mp (Selector.getElem?_selections hk)
    have hboundYs : k < ys.length := hlength ▸ hlt
    obtain ⟨⟨item, x, hitem, hx, hy⟩, -⟩ := (List.forall₂_iff_get.mp hys).2 k hbound hboundYs
    refine ⟨item, x, hplace ▸ hitem, hx, ?_⟩
    rw [Tensor.entry?, hk, Option.bind_some, List.getElem?_eq_getElem hboundYs, ← hy]
    rfl
  refine ⟨?_, fun h => Context.length_of_resolve_refArray h⟩
  rcases hindices.reference name.shown with ⟨is, hselections, hscalar, href⟩ | href
  · rw [hselections] at hys
    obtain ⟨y, rest, ⟨-, v, hv, htensor⟩, hrest, rfl⟩ := List.forall₂_cons_left_iff.mp hys
    rw [List.forall₂_nil_left_iff] at hrest
    subst hrest
    refine ⟨_, v, _, hresolve, Or.inl ⟨_, href⟩, ?_, htensor, hscalar.symm, fun js hjs => ?_⟩
    · rw [href]
      exact hv
    · rw [show (Tensor.scalar y).shape = Selector.shape selectors from hscalar.symm] at hjs
      obtain ⟨item, x, hitem, hx, hentry⟩ := hentries js hjs
      refine ⟨item, x, hitem, hx, ?_⟩
      rw [← hentry]
      simp only [Tensor.entry?, hscalar, Tensor.scalar]
  · have hne : ys ≠ [] := by
      intro hnil
      have hpos := hindices.volume_pos
      rw [← hlength, hnil] at hpos
      exact Nat.lt_irrefl 0 hpos
    refine ⟨_, .array rules ⟨Selector.shape selectors, ys, hlength⟩, _, hresolve, Or.inr ⟨_, href⟩,
      ?_, rfl, rfl, hentries⟩
    rw [href]
    refine Expr.eval_refArray ?_ hne hlength
    rw [List.forall₂_map_left_iff]
    exact hys.imp fun is y h => h.2

end Evaluation

/-! ## A row of a matrix -/

/-- A matrix of two rows, and the number of its first row. -/
def matrixData : Table String Datum :=
  ⟨[("k", .int 1), ("m", .list [.list [.int 1, .int 2, .int 3], .list [.int 4, .int 5, .int 6]])]⟩

/-- The entries by identity. -/
def matrixBindings : Bindings :=
  ⟨⟨[(⟨"k", []⟩, .int 1), (⟨"m", [1, 1]⟩, .int 1), (⟨"m", [1, 2]⟩, .int 2),
    (⟨"m", [1, 3]⟩, .int 3), (⟨"m", [2, 1]⟩, .int 4), (⟨"m", [2, 2]⟩, .int 5),
    (⟨"m", [2, 3]⟩, .int 6)]⟩, ⟨[("k", []), ("m", [2, 3])]⟩⟩

/-- The data as constants. -/
def matrixContext : Context Dual where
  constants := matrixBindings.values.map fun n => n.map Scalar.ofDouble
  functions := Table.empty
  shapeOf name := .ok ((matrixBindings.shapes.get? name).getD [])

/-- `m[k + 1, 2:3]` is the second row without its first entry, and its last entry is the last one of
the matrix. -/
theorem eval_slice_matrix :
    let site : Site := ⟨.raw (.raw .nothing), []⟩
    let indices : List Expr := [.add (.var (.text "k")) (.literal (.int 1)),
      .range (.literal (.int 2)) (.literal (.int 3))]
    ∃ e v t, matrixContext.resolve site (.index (.text "m") indices) = .ok e ∧
      e.eval matrixContext.folding = .ok v ∧ v.toTensor = .ok t ∧ t.shape = [2] ∧
      t.entry? [1] = some (Number.int 6).scalar := by
  intro site indices
  have hkeys : matrixData.keys.Nodup := by decide
  have hflatten : Bindings.flatten matrixData = .ok matrixBindings := by rfl
  have hcomplete : Datum.Complete
      (.list [.list [.int 1, .int 2, .int 3], .list [.int 4, .int 5, .int 6]]) := by
    intro item hitem
    have hleaves : item ∈ [Datum.int 1, .int 2, .int 3, .int 4, .int 5, .int 6] := hitem
    simp only [List.mem_cons, List.not_mem_nil, or_false] at hleaves
    rcases hleaves with rfl | rfl | rfl | rfl | rfl | rfl <;> exact ⟨_, rfl, rfl⟩
  have hselects : matrixContext.Selects site indices [2, 3] [.single 2, .span 2 3] := by
    refine .single rfl ?_ (by decide) (by decide)
      (.range ?_ ?_ (by decide) (by decide) (by decide) .nil)
    · rfl
    · rfl
    · rfl
  have hlookup : ∀ id v, matrixBindings.values.get? id = some v →
      matrixContext.lookup id = .ok (.number (v.map Scalar.ofDouble)) := by
    intro id v hv
    unfold Context.lookup matrixContext
    rw [Table.get?_map, hv]
    rfl
  obtain ⟨⟨e, v, t, he, -, hv, ht, hshape, hentries⟩, -⟩ :=
    @eval_slice _ _ .folding .direct Table.empty _ _ _ (.text "m") _ _ _ _ _ _ hkeys hflatten rfl
      hcomplete rfl (by decide) rfl rfl hselects hlookup
  obtain ⟨item, x, hitem, hx, hentry⟩ := hentries [1] (by rw [hshape]; exact .cons (by decide) .nil)
  cases hitem
  cases hx
  exact ⟨e, v, t, he, hv, ht, hshape, hentry⟩

end BayesGraph
