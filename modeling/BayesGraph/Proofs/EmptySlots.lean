import BayesGraph.Dual
import BayesGraph.Proofs.Fixpoint
import BayesGraph.Proofs.Registration
import BayesGraph.Registry

/-!
# What empty index slots select

An empty index slot stands for a whole dimension of an array. On a right-hand side the array has its
final shape when the slot is resolved. In a loop bound or a left-hand side it has the shape that the
left-hand sides registered so far require, so the slot selects the whole final dimension exactly if
one of these left-hand sides, or the data, attains its extent already.
-/

set_option autoImplicit false

namespace BayesGraph

open Outcome

/-! ## The slots of an instance -/

namespace Site

/-- The empty slots in the bounds of a loop, or inside the indices of a left-hand side. -/
def leftSlots (site : Site) : List Slot :=
  match site.statement with
  | .loop _ _ (.range start stop) _ => start.emptySlots ++ stop.emptySlots
  | .sample _ lhs _ | .assign _ lhs _ => lhs.targetSlots
  | .loop _ _ _ _ | .raw _ => []

/-- The slots of an instance with a left-hand side are those inside its indices. -/
theorem leftSlots_of_lhs {site : Site} {lhs : Expr} (h : site.lhs? = some lhs) :
    site.leftSlots = lhs.targetSlots := by
  obtain ⟨s, env⟩ := site
  cases s with
  | sample _ _ _ | assign _ _ _ =>
    cases h
    rfl
  | loop _ _ _ _ | raw _ => cases h

/-- The slots of a loop are those in its bounds. -/
theorem leftSlots_of_range {site : Site} {start stop : Expr}
    (h : site.range? = some (start, stop)) :
    site.leftSlots = start.emptySlots ++ stop.emptySlots := by
  unfold range? at h
  unfold leftSlots
  split at h
  · next hstatement =>
    cases h
    rw [hstatement]
  · cases h

end Site

namespace Expr

mutual

/-- An empty slot stands in one of the dimensions that are written. -/
theorem position_lt_rank (e : Expr) {slot : Slot} (h : slot ∈ e.emptySlots) :
    slot.position < slot.rank := by
  match e with
  | .index name indices =>
    rw [emptySlots] at h
    exact position_lt_rank_of_indices indices (by omega) h
  | .negate val =>
    rw [emptySlots] at h
    exact position_lt_rank val h
  | .add a b | .sub a b | .mul a b | .div a b | .pow a b =>
    rw [emptySlots, List.mem_append] at h
    rcases h with h | h
    · exact position_lt_rank a h
    · exact position_lt_rank b h
  | .call _ arguments =>
    rw [emptySlots] at h
    exact position_lt_rank_of_all arguments h
  | .literal _ | .var _ | .colon | .range _ _ | .ref _ | .refArray _ _ | .raw _ | .rawList _ =>
    simp [emptySlots] at h

/-- The same for the slots of a list of expressions. -/
theorem position_lt_rank_of_all (es : List Expr) {slot : Slot} (h : slot ∈ emptySlotsOfAll es) :
    slot.position < slot.rank := by
  match es with
  | [] => simp [emptySlotsOfAll] at h
  | e :: rest =>
    rw [emptySlotsOfAll, List.mem_append] at h
    rcases h with h | h
    · exact position_lt_rank e h
    · exact position_lt_rank_of_all rest h

/-- The same for the slots among indices and inside of them. -/
theorem position_lt_rank_of_indices {name : String} {rank d : Nat} (es : List Expr)
    (hlen : d + es.length ≤ rank) {slot : Slot} (h : slot ∈ indexSlots name rank d es) :
    slot.position < slot.rank := by
  match es with
  | [] => simp [indexSlots] at h
  | .colon :: rest =>
    rw [List.length_cons] at hlen
    rw [indexSlots, List.mem_cons] at h
    rcases h with rfl | h
    · dsimp only
      omega
    · exact position_lt_rank_of_indices rest (by omega) h
  | .range a b :: rest =>
    rw [List.length_cons] at hlen
    rw [indexSlots, List.mem_append, List.mem_append] at h
    rcases h with h | h | h
    · exact position_lt_rank a h
    · exact position_lt_rank b h
    · exact position_lt_rank_of_indices rest (by omega) h
  | .literal _ :: rest | .var _ :: rest | .index _ _ :: rest | .negate _ :: rest
  | .add _ _ :: rest | .sub _ _ :: rest | .mul _ _ :: rest | .div _ _ :: rest
  | .pow _ _ :: rest | .call _ _ :: rest | .ref _ :: rest | .refArray _ _ :: rest
  | .raw _ :: rest | .rawList _ :: rest =>
    rw [List.length_cons] at hlen
    rw [indexSlots, List.mem_append] at h
    · rcases h with h | h
      · exact position_lt_rank _ h
      · exact position_lt_rank_of_indices rest (by omega) h
    all_goals simp

end

/-- The same for the slots inside the indices of a left-hand side. -/
theorem position_lt_rank_of_target (lhs : Expr) {slot : Slot} (h : slot ∈ lhs.targetSlots) :
    slot.position < slot.rank := by
  cases lhs with
  | index name indices => exact position_lt_rank_of_all indices h
  | _ => simp [targetSlots] at h

end Expr

/-! ## Slots are resolved together with what they stand in -/

namespace Context

variable {α : Type} [Scalar α] {ctx : Context α} {site : Site}

mutual

/-- When an expression is resolved, all of its empty slots have selected positions. -/
theorem selection_of_resolve (e : Expr) {resolved : Expr} (h : ctx.resolve site e = .ok resolved)
    {slot : Slot} (hslot : slot ∈ e.emptySlots) : ∃ ps, ctx.selection site slot = .ok ps := by
  match e with
  | .index name indices =>
    rw [resolve] at h
    split at h
    · exact absurd h Site.refuse_ne_ok
    · rw [bind_eq_ok] at h
      obtain ⟨ps, hps, -⟩ := h
      rw [Expr.emptySlots] at hslot
      exact selection_of_positionsOf indices hps hslot
  | .negate val =>
    simp only [resolve, bind_eq_ok] at h
    obtain ⟨v, hv, -⟩ := h
    exact selection_of_resolve val hv (by simpa [Expr.emptySlots] using hslot)
  | .add a b | .sub a b | .mul a b | .div a b | .pow a b =>
    simp only [resolve, bind_eq_ok] at h
    obtain ⟨x, hx, y, hy, -⟩ := h
    rw [Expr.emptySlots, List.mem_append] at hslot
    rcases hslot with hslot | hslot
    · exact selection_of_resolve a hx hslot
    · exact selection_of_resolve b hy hslot
  | .call _ arguments =>
    simp only [resolve, bind_eq_ok] at h
    obtain ⟨es, hes, -⟩ := h
    exact selection_of_resolveAll arguments hes (by simpa [Expr.emptySlots] using hslot)
  | .literal _ | .var _ | .colon | .range _ _ | .ref _ | .refArray _ _ | .raw _ | .rawList _ =>
    simp [Expr.emptySlots] at hslot

/-- When expressions are resolved, all of their empty slots have selected positions. -/
theorem selection_of_resolveAll (es : List Expr) {resolved : List Expr}
    (h : ctx.resolveAll site es = .ok resolved) {slot : Slot}
    (hslot : slot ∈ Expr.emptySlotsOfAll es) : ∃ ps, ctx.selection site slot = .ok ps := by
  match es with
  | [] => simp [Expr.emptySlotsOfAll] at hslot
  | e :: rest =>
    simp only [resolveAll, bind_eq_ok] at h
    obtain ⟨x, hx, xs, hxs, -⟩ := h
    rw [Expr.emptySlotsOfAll, List.mem_append] at hslot
    rcases hslot with hslot | hslot
    · exact selection_of_resolve e hx hslot
    · exact selection_of_resolveAll rest hxs hslot

/-- When indices select positions, the empty slots among them and inside of them do. -/
theorem selection_of_positionsOf {name : String} {rank d : Nat} (es : List Expr)
    {positions : List (List Int)} (h : ctx.positionsOf site name rank d es = .ok positions)
    {slot : Slot} (hslot : slot ∈ Expr.indexSlots name rank d es) :
    ∃ ps, ctx.selection site slot = .ok ps := by
  match es with
  | [] => simp [Expr.indexSlots] at hslot
  | .colon :: rest =>
    simp only [positionsOf, bind_eq_ok] at h
    obtain ⟨ps, hps, more, hmore, -⟩ := h
    rw [Expr.indexSlots, List.mem_cons] at hslot
    rcases hslot with rfl | hslot
    · exact ⟨ps, hps⟩
    · exact selection_of_positionsOf rest hmore hslot
  | .range a b :: rest =>
    simp only [positionsOf, bind_eq_ok] at h
    obtain ⟨x, hx, lo, -, y, hy, hi, -, ps, -, more, hmore, -⟩ := h
    rw [Expr.indexSlots, List.mem_append, List.mem_append] at hslot
    rcases hslot with hslot | hslot | hslot
    · exact selection_of_resolve a hx hslot
    · exact selection_of_resolve b hy hslot
    · exact selection_of_positionsOf rest hmore hslot
  | .literal _ :: rest | .var _ :: rest | .index _ _ :: rest | .negate _ :: rest
  | .add _ _ :: rest | .sub _ _ :: rest | .mul _ _ :: rest | .div _ _ :: rest
  | .pow _ _ :: rest | .call _ _ :: rest | .ref _ :: rest | .refArray _ _ :: rest
  | .raw _ :: rest | .rawList _ :: rest =>
    rw [positionsOf] at h
    · simp only [bind_eq_ok] at h
      obtain ⟨x, hx, i, -, more, hmore, -⟩ := h
      rw [Expr.indexSlots, List.mem_append] at hslot
      · rcases hslot with hslot | hslot
        · exact selection_of_resolve _ hx hslot
        · exact selection_of_positionsOf rest hmore hslot
      all_goals simp
    all_goals simp

end

/-- The slots of an index are resolved with it. -/
theorem selection_of_evalIndex {e : Expr} {i : Int} (h : ctx.evalIndex site e = .ok i) {slot : Slot}
    (hslot : slot ∈ e.emptySlots) : ∃ ps, ctx.selection site slot = .ok ps := by
  unfold evalIndex at h
  rw [bind_eq_ok] at h
  obtain ⟨resolved, hresolved, -⟩ := h
  exact selection_of_resolve e hresolved hslot

/-- The slots inside the indices of a left-hand side are resolved with it. -/
theorem selection_of_resolveTarget {lhs : Expr} {id : Identity}
    (h : ctx.resolveTarget site lhs = .ok id) {slot : Slot} (hslot : slot ∈ lhs.targetSlots) :
    ∃ ps, ctx.selection site slot = .ok ps := by
  cases lhs with
  | index name indices =>
    simp only [resolveTarget, bind_eq_ok] at h
    obtain ⟨is, his, -⟩ := h
    obtain ⟨e, he, hslot⟩ := Expr.mem_emptySlotsOfAll.mp hslot
    obtain ⟨i, -, hi⟩ := exists_of_mapM his he
    exact selection_of_evalIndex hi hslot
  | _ => simp [Expr.targetSlots] at hslot

/-- Two lists that resolve, resolve one behind the other. -/
theorem resolveAll_append {es fs es' fs' : List Expr} (hes : ctx.resolveAll site es = .ok es')
    (hfs : ctx.resolveAll site fs = .ok fs') : ctx.resolveAll site (es ++ fs) = .ok (es' ++ fs') := by
  induction es generalizing es' with
  | nil =>
    cases hes
    exact hfs
  | cons e rest ih =>
    simp only [resolveAll, bind_eq_ok, pure_eq_ok] at hes
    obtain ⟨first, hfirst, others, hothers, rfl⟩ := hes
    simp only [List.cons_append, resolveAll, hfirst, ih hothers, ok_bind]
    rfl

/-- A bound that may be absent resolves as a list of at most one expression. -/
theorem resolveAll_toList {bound bound' : Option Expr}
    (h : bound.mapM (ctx.resolve site) = .ok bound') :
    ctx.resolveAll site bound.toList = .ok bound'.toList := by
  rcases optionMapM_eq_ok.mp h with ⟨rfl, rfl⟩ | ⟨e, e', rfl, rfl, he⟩
  · rfl
  · simp only [Option.toList, resolveAll, he, ok_bind]
    rfl

/-- The parts of a distribution are resolved one by one. -/
theorem resolveAll_of_resolveDist {d resolved : Dist}
    (h : ctx.resolveDist site d = .ok resolved) :
    ctx.resolveAll site d.parts = .ok resolved.parts := by
  simp only [resolveDist, bind_eq_ok, pure_eq_ok] at h
  obtain ⟨lower, hlower, upper, hupper, params, hparams, rfl⟩ := h
  have hbounds := resolveAll_append (resolveAll_toList hlower) (resolveAll_toList hupper)
  exact resolveAll_append hparams hbounds

/-- The slots of a distribution are resolved with it. -/
theorem selection_of_resolveDist {d resolved : Dist} (h : ctx.resolveDist site d = .ok resolved)
    {slot : Slot} (hslot : slot ∈ Expr.emptySlotsOfAll d.parts) :
    ∃ ps, ctx.selection site slot = .ok ps :=
  selection_of_resolveAll d.parts (resolveAll_of_resolveDist h) hslot

end Context

/-! ## Whole dimensions -/

namespace ShapeTable

/-- The size of the dimension in which a slot stands. -/
def extent (t : ShapeTable) (slot : Slot) : Nat := ((t.shape? slot.name).getD []).getD slot.position 0

/-- All positions of the dimension in which a slot stands. -/
def whole (t : ShapeTable) (slot : Slot) : List Int := integersBetween 1 (t.extent slot)

/-- As many positions as the dimension is large. -/
theorem length_whole (t : ShapeTable) (slot : Slot) : (t.whole slot).length = t.extent slot := by
  unfold whole integersBetween
  rw [List.length_map, List.length_range]
  omega

/-- Two tables fill an empty slot alike exactly if they have the same extent there. -/
theorem whole_eq_whole_iff {t t' : ShapeTable} {slot : Slot} :
    t.whole slot = t'.whole slot ↔ t.extent slot = t'.extent slot := by
  constructor
  · intro h
    rw [← length_whole, h, length_whole]
  · intro h
    rw [whole, whole, h]

/-- With more left-hand sides a dimension keeps its size exactly if data fixes it, or if a left-hand
side that was there before attains the size that it has then. -/
theorem Describes.extent_eq_iff {t t' : ShapeTable} {data : Table String (List Nat)}
    {ids ids' : List Identity} (h : t.Describes data ids) (h' : t'.Describes data ids')
    (hids : ∀ id ∈ ids, id ∈ ids') {slot : Slot} {shape : List Nat}
    (hshape : t.shape? slot.name = some shape) (hposition : slot.position < shape.length) :
    t.extent slot = t'.extent slot ↔ data.contains slot.name = true ∨
      ∃ id ∈ ids, id.name = slot.name ∧ id.indices[slot.position]? = some (t'.extent slot : Int) := by
  cases hdata : data.get? slot.name with
  | some own =>
    have hcontains : data.contains slot.name = true := by simp [Table.contains, hdata]
    have hsame : t.extent slot = t'.extent slot := by
      unfold extent
      rw [(h.of_data _ own hdata).1, (h'.of_data _ own hdata).1]
    simp [hcontains, hsame]
  | none =>
    have hnew : ¬ data.contains slot.name = true := by simp [Table.contains, hdata]
    have hextent := h.of_new slot.name shape hdata hshape
    have hsize : shape[slot.position]? = some (t.extent slot) := by
      unfold extent
      rw [hshape, Option.getD_some, List.getD_eq_getElem?_getD, List.getElem?_eq_getElem hposition,
        Option.getD_some]
    constructor
    · intro heq
      obtain ⟨id, hid, hname, hindex⟩ := hextent.attained slot.position _ hsize
      exact Or.inr ⟨id, hid, hname, heq ▸ hindex⟩
    · rintro (hcontains | ⟨id, hid, hname, hindex⟩)
      · exact absurd hcontains hnew
      · obtain ⟨shape', hshape'⟩ : ∃ shape', t'.shape? slot.name = some shape' := by
          cases hnone : t'.shape? slot.name with
          | none => exact absurd hname (h'.of_none slot.name hnone id (hids id hid))
          | some shape' => exact ⟨shape', rfl⟩
        -- The larger table has at least this size, and the element at its last place says it has
        -- no more.
        obtain ⟨n, hn, hle⟩ :=
          hextent.le_of_subset (h'.of_new _ shape' hdata hshape') hids hsize
        have hsize' : t'.extent slot = n := by
          unfold extent
          rw [hshape', Option.getD_some, List.getD_eq_getElem?_getD, hn, Option.getD_some]
        have hge := (hextent.fits id hid hname).index_le hindex hsize
        omega

end ShapeTable

namespace Unrolled

variable {α : Type} [Scalar α]

omit [Scalar α] in
/-- A slot that is resolved beside some shapes selects the whole dimension that they give. -/
theorem selection_eq_ok {functions : FunctionTable α} {constants : Folding.Constants α}
    {defined : List Datum} {shapes : ShapeTable} {site : Site} {slot : Slot} {ps : List Int}
    (h : (context functions constants defined shapes).selection site slot = .ok ps) :
    ps = shapes.whole slot ∧
      ∃ shape, shapes.shape? slot.name = some shape ∧ shape.length = slot.rank := by
  unfold Context.selection Context.wholeDimension context at h
  rw [bind_eq_ok] at h
  obtain ⟨shape, hshape, h⟩ := h
  dsimp only at hshape
  split at hshape
  · next own hown =>
    cases hshape
    split at h
    · exact absurd h Site.refuse_ne_ok
    · next hrank =>
      cases h
      refine ⟨?_, shape, hown, not_not.mp hrank⟩
      unfold ShapeTable.whole ShapeTable.extent
      rw [hown]
      rfl
  · cases hshape

omit [Scalar α] in
/-- While constants are folded, a slot that is resolved selects the whole dimension of an array of
data. -/
theorem selection_folding_eq_ok {functions : FunctionTable α} {data : Table String (List Nat)}
    {constants : Folding.Constants α} {t : ShapeTable} {ids : List Identity} {site : Site}
    {slot : Slot} {ps : List Int} (ht : t.Describes data ids)
    (h : (Folding.context functions data constants).selection site slot = .ok ps) :
    ps = t.whole slot := by
  unfold Context.selection Context.wholeDimension Folding.context at h
  rw [bind_eq_ok] at h
  obtain ⟨shape, hshape, h⟩ := h
  dsimp only at hshape
  split at hshape
  · next own hown =>
    cases hshape
    split at h
    · exact absurd h Site.refuse_ne_ok
    · cases h
      unfold ShapeTable.whole ShapeTable.extent
      rw [(ht.of_data _ shape hown).1]
      rfl
  · cases hshape

/-- Every empty slot at an instance that a strict walk comes to is resolved there. -/
theorem selection_of_step {context : ShapeTable → Context α} {p mid : Progress} {site : Site}
    {inner : List Site} (h : (registering context).step p site = .ok (mid, inner)) {slot : Slot}
    (hslot : slot ∈ site.leftSlots) : ∃ ps, (context p.shapes).selection site slot = .ok ps := by
  rcases registering_step_eq_ok_iff.mp h with ⟨lo, hi, ⟨start, stop, hrange, hbounds⟩, -⟩ |
      ⟨lhs, id, -, -, hlhs, hid, -⟩
  · rw [Site.leftSlots_of_range hrange] at hslot
    unfold Context.evalBounds at hbounds
    simp only [bind_eq_ok] at hbounds
    obtain ⟨lo', hlo, hi', hhi, -⟩ := hbounds
    rcases List.mem_append.mp hslot with hslot | hslot
    · exact Context.selection_of_evalIndex hlo hslot
    · exact Context.selection_of_evalIndex hhi hslot
  · rw [Site.leftSlots_of_lhs hlhs] at hslot
    exact Context.selection_of_resolveTarget hid hslot

/-- Every empty slot on a right-hand side is resolved with it. -/
theorem selection_of_resolveMeaning {ctx : Context α} {site : Site} {meaning : Meaning}
    (h : resolveMeaning ctx site = .ok meaning) {slot : Slot} (hslot : slot ∈ site.rightSlots) :
    ∃ ps, ctx.selection site slot = .ok ps := by
  unfold resolveMeaning at h
  unfold Site.rightSlots at hslot
  split at h
  · next hstatement =>
    rw [hstatement] at hslot
    rw [bind_eq_ok] at h
    obtain ⟨d, hd, -⟩ := h
    exact Context.selection_of_resolveDist hd hslot
  · simp at h
  · next hstatement =>
    rw [hstatement] at hslot
    rw [bind_eq_ok] at h
    obtain ⟨e, he, -⟩ := h
    exact Context.selection_of_resolve _ he hslot
  all_goals simp at h

/-- Every slot inside a left-hand side or a loop bound stands in one of the dimensions written. -/
theorem position_lt_rank {site : Site} {slot : Slot} (h : slot ∈ site.leftSlots) :
    slot.position < slot.rank := by
  unfold Site.leftSlots at h
  split at h
  · rcases List.mem_append.mp h with h | h <;> exact Expr.position_lt_rank _ h
  · exact Expr.position_lt_rank_of_target _ h
  · exact Expr.position_lt_rank_of_target _ h
  all_goals simp at h

/-- What the empty slots of a model select while it is unrolled, with the instances to which the
registration of left-hand sides comes, each with the state there. -/
structure Selects (functions : FunctionTable α) (defined : List Datum) (u : Unrolled α)
    (events : List (Progress × Site)) (final : Progress) : Prop where
  /-- In a loop bound or a left-hand side, a slot selects the whole final dimension exactly if data
  fixes the dimension, or if a left-hand side registered before attains its final size. -/
  left : ∀ e ∈ events, ∀ slot ∈ e.2.leftSlots, ∃ ps,
    (context functions u.constants defined e.1.shapes).selection e.2 slot = .ok ps ∧
      (ps = u.shapes.whole slot ↔ u.data.shapes.contains slot.name = true ∨
        ∃ id ∈ e.1.ids, id.name = slot.name ∧
          id.indices[slot.position]? = some (u.shapes.extent slot : Int))
  /-- On a right-hand side, a slot selects the whole final dimension. -/
  right : ∀ t ∈ final.targets, ∀ slot ∈ t.1.rightSlots,
    (context functions u.constants defined u.shapes).selection t.1 slot =
      .ok (u.shapes.whole slot)
  /-- While constants are folded, a slot that can be resolved selects the whole final dimension. -/
  folding : ∀ constants site slot ps,
    (Folding.context functions u.data.shapes constants).selection site slot = .ok ps →
      ps = u.shapes.whole slot

/-- Whenever a model is unrolled, its empty slots select what `Selects` says. -/
theorem selects_of_make {m : Model} {bindings : Table String Datum} {functions : FunctionTable α}
    {u : Unrolled α} (h : make m bindings functions = .ok u) {events : List (Progress × Site)}
    {final : Progress}
    (hrun : (registering (context functions u.constants (Stmt.definedNames m.statements))).Trace
      ⟨ShapeTable.ofData u.data.shapes, []⟩ (m.statements.map fun s => ⟨s, []⟩) events final) :
    Selects functions (Stmt.definedNames m.statements) u events final := by
  obtain ⟨targets, -, -, hwalk, hdefinitions⟩ := make_eq_ok_iff.mp h
  obtain ⟨events', hrun'⟩ := Stmt.walkAll_eq_ok_iff.mp hwalk
  obtain ⟨rfl, rfl⟩ := hrun.unique hrun'
  obtain ⟨hfinal, hsound⟩ := sound_of_trace hrun (sound_start u.data.shapes)
  refine ⟨fun e he slot hslot => ?_, fun t ht slot hslot => ?_, fun constants site slot ps hps => ?_⟩
  · obtain ⟨_, _, htrace, -⟩ := hrun.of_mem he
    cases htrace with
    | step hstep _ =>
      obtain ⟨ps, hps⟩ := selection_of_step hstep hslot
      obtain ⟨rfl, shape, hshape, hrank⟩ := selection_eq_ok hps
      refine ⟨_, hps, ?_⟩
      rw [ShapeTable.whole_eq_whole_iff]
      exact (hsound e he).extent_eq_iff hfinal (ids_subset_of_trace hrun he) hshape
        (hrank ▸ position_lt_rank hslot)
  · obtain ⟨d, -, hd⟩ := exists_of_mapM hdefinitions (List.mem_reverse.mpr ht)
    have hmeaning := Context.explain_eq_ok.mp (define_eq_ok hd).2.1
    obtain ⟨ps, hps⟩ := selection_of_resolveMeaning hmeaning hslot
    obtain ⟨rfl, -⟩ := selection_eq_ok hps
    exact hps
  · exact selection_folding_eq_ok hfinal hps

/-! ## A slice above a definition -/

/-- `x[1]` is defined, then a loop runs up to the sum of `x`, then `x[2]` is defined. -/
def sliceModel : Model where
  statements :=
    [.assign [] (.index (.text "x") [.literal (.int 1)]) (.literal (.int 1)),
    .loop [] (.text "i")
      (.range (.literal (.int 1)) (.call (.text "sum") [.index (.text "x") [.colon]]))
      [.sample [] (.index (.text "y") [.var (.text "i")])
        (.dist { name := .text "dnorm", params := [.literal (.int 0), .literal (.int 1)] })],
    .assign [] (.index (.text "x") [.literal (.int 2)]) (.literal (.int 1))]

/-- The functions that constants are folded with. -/
def sliceFunctions : FunctionTable Dual := (Registry.builtin : Registry Dual).foldingFunctions

/-- Both elements of `x` are constants. -/
def sliceConstants : Folding.Constants Dual := ⟨[(⟨"x", [1]⟩, .int 1), (⟨"x", [2]⟩, .int 1)]⟩

/-- The first round finds both constants, and the second round finds no more. -/
theorem constants_sliceModel :
    Folding.constants sliceFunctions sliceModel.statements ⟨⟨[]⟩, ⟨[]⟩⟩ = .ok sliceConstants :=
  Folding.saturate_eq_ok rfl rfl

/-- The model is unrolled. On the way its loop finds only the first element of `x`, because the
second one is defined below it, although `x` has two elements in the end. -/
theorem trace_sliceModel :
    ∃ (u : Unrolled Dual) (events : List (Progress × Site)) (final : Progress),
      make sliceModel ⟨[]⟩ sliceFunctions = .ok u ∧
      (registering (context sliceFunctions u.constants
        (Stmt.definedNames sliceModel.statements))).Trace ⟨ShapeTable.ofData u.data.shapes, []⟩
        (sliceModel.statements.map fun s => ⟨s, []⟩) events final ∧
      ∃ e ∈ events, ⟨"x", 0, 1⟩ ∈ e.2.leftSlots ∧
        (context sliceFunctions u.constants (Stmt.definedNames sliceModel.statements)
          e.1.shapes).selection e.2 ⟨"x", 0, 1⟩ = .ok [1] ∧
        u.shapes.whole ⟨"x", 0, 1⟩ = [1, 2] := by
  have hrun : ∃ events targets, (registering
      (context sliceFunctions sliceConstants (Stmt.definedNames sliceModel.statements))).Trace
        ⟨ShapeTable.ofData ⟨[]⟩, []⟩ (sliceModel.statements.map fun s => ⟨s, []⟩) events
        ⟨⟨⟨[]⟩, ⟨[("x", [2]), ("y", [1])]⟩⟩, targets⟩ ∧
      (∃ ds, targets.reverse.mapM (fun t => define
        (context sliceFunctions sliceConstants (Stmt.definedNames sliceModel.statements))
        ⟨⟨[]⟩, ⟨[("x", [2]), ("y", [1])]⟩⟩ t.1 t.2) = .ok ds) ∧
      ∃ e ∈ events, ⟨"x", 0, 1⟩ ∈ e.2.leftSlots ∧
        (context sliceFunctions sliceConstants (Stmt.definedNames sliceModel.statements)
          e.1.shapes).selection e.2 ⟨"x", 0, 1⟩ = .ok [1] :=
    ⟨_, _, .step rfl (.step rfl (.step rfl (.step rfl (.done _)))), ⟨_, rfl⟩, _,
      List.mem_cons_of_mem _ List.mem_cons_self, List.mem_cons_self, rfl⟩
  obtain ⟨events, targets, htrace, ⟨ds, hds⟩, e, he, hslot, hselection⟩ := hrun
  refine ⟨⟨ds, ⟨⟨[]⟩, ⟨[("x", [2]), ("y", [1])]⟩⟩, ⟨⟨[]⟩, ⟨[]⟩⟩, sliceConstants⟩, events, _, ?_,
    htrace, e, he, hslot, hselection, rfl⟩
  exact make_eq_ok_iff.mpr ⟨targets, rfl, constants_sliceModel,
    Stmt.walkAll_eq_ok_iff.mpr ⟨events, htrace⟩, hds⟩

/-- The slots of this model select what they always do. -/
theorem selects_sliceModel :
    ∃ (u : Unrolled Dual) (events : List (Progress × Site)) (final : Progress),
      make sliceModel ⟨[]⟩ sliceFunctions = .ok u ∧
      (registering (context sliceFunctions u.constants
        (Stmt.definedNames sliceModel.statements))).Trace ⟨ShapeTable.ofData u.data.shapes, []⟩
        (sliceModel.statements.map fun s => ⟨s, []⟩) events final ∧
      Selects sliceFunctions (Stmt.definedNames sliceModel.statements) u events final := by
  obtain ⟨u, events, final, hu, hrun, -⟩ := trace_sliceModel
  exact ⟨u, events, final, hu, hrun, selects_of_make hu hrun⟩

/-- So not every empty slot selects a whole dimension of the final shapes. -/
theorem not_selects_whole_sliceModel :
    ∃ (u : Unrolled Dual) (events : List (Progress × Site)) (final : Progress),
      make sliceModel ⟨[]⟩ sliceFunctions = .ok u ∧
      (registering (context sliceFunctions u.constants
        (Stmt.definedNames sliceModel.statements))).Trace ⟨ShapeTable.ofData u.data.shapes, []⟩
        (sliceModel.statements.map fun s => ⟨s, []⟩) events final ∧
      ∃ e ∈ events, ∃ slot ∈ e.2.leftSlots, ∃ ps,
        (context sliceFunctions u.constants (Stmt.definedNames sliceModel.statements)
          e.1.shapes).selection e.2 slot = .ok ps ∧ ps ≠ u.shapes.whole slot := by
  obtain ⟨u, events, final, hu, hrun, e, he, hslot, hselection, hwhole⟩ := trace_sliceModel
  refine ⟨u, events, final, hu, hrun, e, he, _, hslot, _, hselection, ?_⟩
  rw [hwhole]
  decide

end Unrolled

end BayesGraph
