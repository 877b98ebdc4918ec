import BayesGraph.Proofs.ArrayBounds
import BayesGraph.Proofs.DataExtension

/-!
# The constants that data determines

Data determines its own values and, step by step, the value of every logical definition that refers
only to what is determined already. Folding does not find all of these values. It runs before any
left-hand side is registered, so of all whole dimensions it knows those of arrays of data only: it
passes over a statement with an empty slot on another array, and over a loop whose bounds have one.

The constants are exactly the values determined by the definitions that remain visible
(`constants_iff_derived`). The induction from the constants runs along the additions of folding,
each supported by constants that were there before. The induction to the constants runs along the
derivation, because the constants are a fixpoint. If all slots that matter name arrays of data,
every value that data determines is a constant.
-/

set_option autoImplicit false

namespace BayesGraph

open Outcome

/-! ## Slots on right-hand sides -/

namespace Stmt

mutual

/-- The empty slots on the right-hand sides of the logical statements in a statement. -/
def logicalSlots : Stmt → List Slot
  | .assign _ _ rhs => rhs.emptySlots
  | .loop _ _ _ body => logicalSlotsOfAll body
  | .sample _ _ _ | .raw _ => []

/-- The empty slots on the right-hand sides of the logical statements in a list. -/
def logicalSlotsOfAll : List Stmt → List Slot
  | [] => []
  | s :: rest => logicalSlots s ++ logicalSlotsOfAll rest

end

/-- The slots of a list of statements are those of its members. -/
theorem logicalSlotsOfAll_eq (ss : List Stmt) : logicalSlotsOfAll ss = ss.flatMap logicalSlots := by
  induction ss with
  | nil => rfl
  | cons s ss ih => rw [logicalSlotsOfAll, ih, List.flatMap_cons]

/-- The body of a loop has no other slots on the right-hand sides than the loop. -/
theorem logicalSlots_of_inner {site t : Site} {lo hi : Int} (ht : t ∈ site.inner lo hi) :
    t.statement.logicalSlots ⊆ site.statement.logicalSlots := by
  obtain ⟨comment, var, sequence, body, s, i, hstatement, hs, rfl⟩ := Site.exists_of_mem_inner ht
  intro slot hslot
  rw [hstatement, logicalSlots, logicalSlotsOfAll_eq]
  exact List.mem_flatMap.mpr ⟨s, hs, hslot⟩

/-- The instances to which a context leads have no other slots on the right-hand sides than the
statements. -/
theorem logicalSlots_of_reach {α : Type} [Scalar α] {ctx : Context α} {ss : List Stmt} {site : Site}
    (hsite : site ∈ ctx.reach (Folding.start ss)) :
    site.statement.logicalSlots ⊆ logicalSlotsOfAll ss := by
  refine Context.forall_reach (P := fun site => site.statement.logicalSlots ⊆ logicalSlotsOfAll ss)
    (fun site hsite slot hslot => ?_)
    (fun site lo hi _ hsub t ht => List.Subset.trans (logicalSlots_of_inner ht) hsub) site hsite
  obtain ⟨s, hs, rfl⟩ := List.mem_map.mp hsite
  rw [logicalSlotsOfAll_eq]
  exact List.mem_flatMap.mpr ⟨s, hs, hslot⟩

end Stmt

variable {α : Type} [Scalar α] {functions : FunctionTable α} {m : Model}
  {bindings : Table String Datum} {u : Unrolled α}

namespace Folding

variable {data : Table String (List Nat)} {K : Constants α} {site : Site}

omit [Scalar α] in
/-- While constants are folded, only slots on arrays of data are resolved. -/
theorem contains_of_selection {slot : Slot} {ps : List Int}
    (h : (context functions data K).selection site slot = .ok ps) :
    data.contains slot.name = true := by
  unfold Context.selection Context.wholeDimension context at h
  rw [bind_eq_ok] at h
  obtain ⟨shape, hshape, -⟩ := h
  dsimp only at hshape
  split at hshape
  · next own hown => simp [Table.contains, hown]
  · cases hshape

/-- A loop that opens while constants are folded has slots on arrays of data only. -/
theorem onData_of_opens {lo hi : Int} (h : (context functions data K).Opens site lo hi) :
    Unrolled.OnData data site := by
  obtain ⟨start, stop, hrange, hbounds⟩ := h
  unfold Context.evalBounds at hbounds
  simp only [bind_eq_ok] at hbounds
  obtain ⟨lo', hlo, hi', hhi, -⟩ := hbounds
  intro slot hslot
  rw [Site.leftSlots_of_range hrange] at hslot
  obtain ⟨ps, hps⟩ : ∃ ps, (context functions data K).selection site slot = .ok ps :=
    (List.mem_append.mp hslot).elim (Context.selection_of_evalIndex hlo)
      (Context.selection_of_evalIndex hhi)
  exact contains_of_selection hps

/-- So has a left-hand side that is resolved while constants are folded. -/
theorem onData_of_target? {id : Identity} (h : (context functions data K).target? site = some id) :
    Unrolled.OnData data site := by
  obtain ⟨lhs, hlhs, hid⟩ := Context.target?_eq_some.mp h
  intro slot hslot
  rw [Site.leftSlots_of_lhs hlhs] at hslot
  obtain ⟨ps, hps⟩ := Context.selection_of_resolveTarget hid hslot
  exact contains_of_selection hps

end Folding

/-- A logical definition folds to the same value with other constants that have the values of its
references. -/
theorem Definition.FoldsTo.of_refs {d : Definition} {values K : Folding.Constants α} {n : Number α}
    (h : d.FoldsTo functions values n) (hrefs : d.meaning.refs = .ok d.refs)
    (hK : ∀ ref ∈ d.refs, ∀ k, values.get? ref = some k → K.get? ref = some k) :
    d.FoldsTo functions K n := by
  obtain ⟨e, v, hmeaning, hv, hshape, hn⟩ := h
  have hown : e.refs = .ok d.refs := by
    rw [hmeaning] at hrefs
    simpa [Meaning.refs, Meaning.parts, Expr.refsOfAll] using hrefs
  obtain ⟨ids, hids, hknown⟩ := Expr.lookup_of_eval e hv
  rw [hown, Except.ok.injEq] at hids
  subst hids
  have hlookup : ∀ ref ∈ d.refs, (Folding.context functions Table.empty values).lookup ref =
      (Folding.context functions Table.empty K).lookup ref := by
    intro ref href
    obtain ⟨x, hx⟩ := hknown ref href
    cases hk : values.get? ref with
    | none => simp [Context.lookup, Folding.context, hk] at hx
    | some k => simp [Context.lookup, Folding.context, hk, hK ref href k hk]
  exact ⟨e, v, hmeaning, (Expr.eval_congr e hown hlookup).symm.trans hv, hshape, hn⟩

namespace Unrolled

/-! ## What data determines -/

/-- The values that data determines through the admitted definitions: its own ones, and that of a
logical definition whose references have such values. A definition that folds to a value has looked
up every one of its references. -/
inductive Derived (functions : FunctionTable α) (u : Unrolled α) (admitted : Definition → Prop) :
    Identity → Number α → Prop
  | data {v : Identity} {x : Number Double} (h : u.data.values.get? v = some x) :
      Derived functions u admitted v (x.map Scalar.ofDouble)
  | logical {d : Definition} {n : Number α} (values : Folding.Constants α)
      (hd : d ∈ u.definitions) (hadmitted : admitted d)
      (hdata : u.data.values.get? d.target = none)
      (hrefs : ∀ ref ∈ d.refs, ∀ k, values.get? ref = some k →
        Derived functions u admitted ref k)
      (hfolds : d.FoldsTo functions values n) : Derived functions u admitted d.target n

/-- With more definitions, data determines more. -/
theorem Derived.mono {admitted admitted' : Definition → Prop} {v : Identity} {n : Number α}
    (h : Derived functions u admitted v n)
    (hle : ∀ d ∈ u.definitions, d.meaning.isStochastic = false → admitted d → admitted' d) :
    Derived functions u admitted' v n := by
  induction h with
  | data h => exact .data h
  | @logical d n values hd hadmitted hdata _ hfolds ih =>
    have hlogical : d.meaning.isStochastic = false := by
      obtain ⟨e, -, hmeaning, -⟩ := hfolds
      rw [hmeaning]
      rfl
    exact .logical values hd (hle d hd hlogical hadmitted) hdata ih hfolds

/-- The context in which the right-hand sides of an unrolled model were resolved. -/
def finalContext (functions : FunctionTable α) (m : Model) (u : Unrolled α) : Context α :=
  context functions u.constants (Stmt.definedNames m.statements) u.shapes

/-- The instances to which an unrolled model leads through loops whose bounds have empty slots on
arrays of data only. -/
inductive InSight (functions : FunctionTable α) (m : Model) (u : Unrolled α) : Site → Prop
  | statement {s : Stmt} (hs : s ∈ m.statements) : InSight functions m u ⟨s, []⟩
  | inner {site t : Site} {lo hi : Int} (hsite : InSight functions m u site)
      (hdata : OnData u.data.shapes site) (hopens : (finalContext functions m u).Opens site lo hi)
      (ht : t ∈ site.inner lo hi) : InSight functions m u t

/-- The definition is made by an instance in sight, whose empty slots name arrays of data. -/
def Visible (functions : FunctionTable α) (m : Model) (u : Unrolled α) (d : Definition) : Prop :=
  ∃ site, InSight functions m u site ∧ OnData u.data.shapes site ∧
    (∀ slot ∈ site.rightSlots, u.data.shapes.contains slot.name = true) ∧
    (finalContext functions m u).target? site = some d.target ∧
    define (context functions u.constants (Stmt.definedNames m.statements)) u.shapes site
      d.target = .ok d

/-- The instances in sight are those to which folding comes. -/
theorem inSight_iff (hu : make m bindings functions = .ok u) {site : Site} :
    InSight functions m u site ↔ site ∈ (Folding.context functions u.data.shapes u.constants).reach
      (Folding.start m.statements) := by
  have hfinal := describes_of_make hu
  constructor
  · intro h
    induction h with
    | statement hs => exact Context.subset_reach _ _ (List.mem_map_of_mem hs)
    | inner _ hdata hopens ht ih =>
      exact Context.mem_reach_of_inner ih ((opens_iff_of_data hfinal hdata).mp hopens) ht
  · refine Context.forall_reach (fun site hsite => ?_) (fun site lo hi hopens hsite t ht => ?_) site
    · obtain ⟨s, hs, rfl⟩ := List.mem_map.mp hsite
      exact .statement hs
    · exact .inner hsite (Folding.onData_of_opens hopens) (opens_of_folding hfinal hopens) ht

/-! ## From the constants to a derivation -/

/-- What a statement instance supports is determined, if the constants that were there before
are. -/
theorem derived_of_supports (hu : make m bindings functions = .ok u) {K : Folding.Constants α}
    (hK : K.Le u.constants) {site : Site} {id : Identity} {n : Number α}
    (hsite : site ∈ (Folding.context functions u.data.shapes K).reach
      (Folding.start m.statements))
    (hsupports : Folding.Supports (Folding.context functions u.data.shapes K) site id n)
    (hdata : u.data.values.get? id = none)
    (hderived : ∀ v k, K.get? v = some k → Derived functions u (Visible functions m u) v k) :
    Derived functions u (Visible functions m u) id n := by
  have hfinal := describes_of_make hu
  have hsite' := Folding.reach_of_le hK hsite
  have htarget := (hsupports.of_le hK).target?
  obtain ⟨comment, lhs, rhs, resolved, v, hstatement, hid, hresolved, hv, hshape, hn⟩ := hsupports
  have hresolved' : (Folding.context functions u.data.shapes u.constants).resolve site rhs =
      .ok resolved :=
    (Context.resolve_settles (Folding.context_below hK) (Site.Alike.refl site) rhs
      fun slot _ => Settles.of_eq (Folding.selection_eq site slot)).eq_ok hresolved
  obtain ⟨d, hd, rfl, hmeaning, hdefine⟩ := define_of_folding hu hsite' hstatement
    (Folding.resolveTarget_of_le hK site lhs hid) hresolved'
  have hright : ∀ slot ∈ site.rightSlots, u.data.shapes.contains slot.name = true := by
    intro slot hslot
    unfold Site.rightSlots at hslot
    rw [hstatement] at hslot
    obtain ⟨ps, hps⟩ := Context.selection_of_resolve rhs hresolved hslot
    exact Folding.contains_of_selection hps
  have hvisible : Visible functions m u d :=
    ⟨site, (inSight_iff hu).mpr hsite', Folding.onData_of_target? htarget, hright,
      target?_of_folding hfinal htarget, hdefine⟩
  exact .logical K hd hvisible hdata (fun ref _ k hk => hderived ref k hk)
    ⟨resolved, v, hmeaning, hv, hshape, hn⟩

/-- Every constant is determined by visible definitions. -/
theorem derived_of_constant (hu : make m bindings functions = .ok u) {v : Identity} {n : Number α}
    (hn : u.constants.get? v = some n) : Derived functions u (Visible functions m u) v n := by
  obtain ⟨-, -, hconstants, -, -⟩ := make_eq_ok_iff.mp hu
  -- along the additions of folding, as long as they stay below the constants
  have hmain : (Folding.ofData u.data).Le u.constants ∧ (u.constants.Le u.constants →
      ∀ v n, u.constants.get? v = some n → Derived functions u (Visible functions m u) v n) := by
    refine Folding.constants_induction (P := fun K => (Folding.ofData u.data).Le K ∧
      (K.Le u.constants → ∀ v n, K.get? v = some n →
        Derived functions u (Visible functions m u) v n)) hconstants ⟨Table.Le.refl _, ?_⟩ ?_
    · intro _ v n hv
      unfold Folding.ofData at hv
      rw [Table.get?_map, Option.map_eq_some_iff] at hv
      obtain ⟨x, hx, rfl⟩ := hv
      exact .data hx
    · rintro K site id n ⟨hdata, ih⟩ hnew hsite hsupports
      have hK : K.Le (K.insert id n) := Table.le_insert n hnew
      refine ⟨hdata.trans hK, fun hinsert v k hv => ?_⟩
      have hderived := ih (hK.trans hinsert)
      rw [Table.get?_insert] at hv
      split at hv
      · next hid =>
        cases hv
        subst hid
        have hnone := hdata.get?_eq_none hnew
        unfold Folding.ofData at hnone
        rw [Table.get?_map, Option.map_eq_none_iff] at hnone
        exact derived_of_supports hu (hK.trans hinsert) hsite hsupports hnone hderived
      · exact hderived v k hv
  exact hmain.2 (Table.Le.refl _) v n hn

/-! ## From a derivation to the constants -/

/-- Only a logical statement has an expression as its meaning. -/
theorem assign_of_resolveMeaning {ctx : Context α} {site : Site} {e : Expr}
    (h : resolveMeaning ctx site = .ok (.expr e)) :
    ∃ comment lhs rhs, site.statement = .assign comment lhs rhs ∧
      ctx.resolve site rhs = .ok e := by
  unfold resolveMeaning at h
  cases hstatement : site.statement with
  | assign comment lhs rhs =>
    rw [hstatement] at h
    simp only [bind_eq_ok, pure_eq_ok, Meaning.expr.injEq] at h
    obtain ⟨_, he, rfl⟩ := h
    exact ⟨comment, lhs, rhs, rfl, he⟩
  | sample comment lhs law =>
    rw [hstatement] at h
    cases law with
    | dist d => simp at h
    | raw object => cases h
  | loop comment var sequence body =>
    rw [hstatement] at h
    cases h
  | raw object =>
    rw [hstatement] at h
    cases h

/-- A value that the visible definitions determine is a constant. -/
theorem constant_of_derived (hu : make m bindings functions = .ok u)
    (hnodup : (u.definitions.map (·.target)).Nodup) {v : Identity} {n : Number α}
    (h : Derived functions u (Visible functions m u) v n) : u.constants.get? v = some n := by
  have hfinal := describes_of_make hu
  have hfixpoint := isFixpoint_of_make hu hnodup
  induction h with
  | @data v x h =>
    refine hfixpoint.contains_data v _ ?_
    unfold Folding.ofData
    rw [Table.get?_map, h, Option.map_some]
  | @logical d n values hd hvisible hdata _ hfolds ih =>
    obtain ⟨site, hsight, honData, hright, htarget, hdefine⟩ := hvisible
    obtain ⟨-, hmeaning, hrefs, -⟩ := define_eq_ok hdefine
    have hmeaning := Context.explain_eq_ok.mp hmeaning
    obtain ⟨e, w, hexpr, hw, hshape, hn⟩ := hfolds.of_refs hrefs ih
    rw [hexpr] at hmeaning
    obtain ⟨comment, lhs, rhs, hstatement, hresolved⟩ := assign_of_resolveMeaning hmeaning
    have hslots : ∀ slot ∈ rhs.emptySlots,
        (finalContext functions m u).selection site slot =
          (Folding.context functions u.data.shapes u.constants).selection site slot := by
      intro slot hslot
      refine selection_of_data hfinal site (hright slot ?_)
      unfold Site.rightSlots
      rw [hstatement]
      exact hslot
    obtain ⟨lhs', hlhs, hid⟩ :=
      Context.target?_eq_some.mp ((target?_of_data hfinal honData).symm.trans htarget)
    unfold Site.lhs? at hlhs
    rw [hstatement, Option.some.injEq] at hlhs
    subst hlhs
    refine hfixpoint.get?_of_supports ((inSight_iff hu).mp hsight)
      ⟨comment, lhs, rhs, e, w, hstatement, hid, ?_, hw, hshape, hn⟩ ?_
    · exact (Context.resolve_settles below_folding (Site.Alike.refl site) rhs
        fun slot hslot => Settles.of_eq (hslots slot hslot)).eq_ok hresolved
    · unfold Folding.ofData
      rw [Table.get?_map, hdata, Option.map_none]

/-! ## The main theorem -/

/-- If the slots of a model that matter name arrays of data, its logical definitions are visible. -/
theorem visible_of_slots (hu : make m bindings functions = .ok u)
    (hleft : ∀ slot ∈ Stmt.leftSlotsOfAll m.statements, u.data.shapes.contains slot.name = true)
    (hright : ∀ slot ∈ Stmt.logicalSlotsOfAll m.statements,
      u.data.shapes.contains slot.name = true) {d : Definition} (hd : d ∈ u.definitions)
    (hlogical : d.meaning.isStochastic = false) : Visible functions m u d := by
  have hfinal := describes_of_make hu
  obtain ⟨targets, -, -, hwalk, hdefinitions⟩ := make_eq_ok_iff.mp hu
  obtain ⟨events, htrace⟩ := Stmt.walkAll_eq_ok_iff.mp hwalk
  obtain ⟨⟨site, id⟩, hregistered, hdefine⟩ := exists_of_mem_mapM hdefinitions hd
  obtain ⟨rfl, hmeaning, -⟩ := define_eq_ok hdefine
  have hmeaning := Context.explain_eq_ok.mp hmeaning
  rw [(targets_of_registering htrace hleft).1, Context.mem_declared] at hregistered
  obtain ⟨hsite, htarget⟩ := hregistered
  have honData : OnData u.data.shapes site := onData_of_reach hleft hsite
  refine ⟨site, (inSight_iff hu).mpr hsite, honData, fun slot hslot => hright slot ?_,
    target?_of_folding hfinal htarget, hdefine⟩
  refine Stmt.logicalSlots_of_reach hsite ?_
  cases hexpr : d.meaning with
  | dist law =>
    rw [hexpr] at hlogical
    cases hlogical
  | expr e =>
    rw [hexpr] at hmeaning
    obtain ⟨comment, lhs, rhs, hstatement, -⟩ := assign_of_resolveMeaning hmeaning
    unfold Site.rightSlots at hslot
    rw [hstatement] at hslot ⊢
    exact hslot

/-- If an unrolled model defines no identity twice, its constants are the values that data
determines through visible definitions. If the empty slots in loop bounds, in left-hand sides and
on the right-hand sides of logical statements name arrays of data, they are all values that data
determines. -/
theorem constants_iff_derived (hu : make m bindings functions = .ok u)
    (hnodup : (u.definitions.map (·.target)).Nodup) :
    (∀ v n, u.constants.get? v = some n ↔ Derived functions u (Visible functions m u) v n) ∧
    ((∀ slot ∈ Stmt.leftSlotsOfAll m.statements ++ Stmt.logicalSlotsOfAll m.statements,
        u.data.shapes.contains slot.name = true) →
      ∀ v n, u.constants.get? v = some n ↔ Derived functions u (fun _ => True) v n) := by
  have hvisible : ∀ v n,
      u.constants.get? v = some n ↔ Derived functions u (Visible functions m u) v n :=
    fun v n => ⟨derived_of_constant hu, constant_of_derived hu hnodup⟩
  refine ⟨hvisible, fun hslots v n => ?_⟩
  rw [hvisible]
  refine ⟨fun h => h.mono fun _ _ _ _ => trivial, fun h => h.mono fun d hd hlogical _ => ?_⟩
  exact visible_of_slots hu (fun slot hslot => hslots slot (List.mem_append_left _ hslot))
    (fun slot hslot => hslots slot (List.mem_append_right _ hslot)) hd hlogical

/-! ## Sums of whole arrays -/

/-- An array `y` with the same element as an array `x`, and the sum of one of the two arrays. -/
def totalModel (array : String) : Model where
  statements :=
    [.assign [] (.index (.text "y") [.literal (.int 1)])
      (.index (.text "x") [.literal (.int 1)]),
    .assign [] (.var (.text "s")) (.call (.text "sum") [.index (.text array) [.colon]])]

/-- The element of `x` is data. -/
def totalData : Table String Datum := ⟨[("x", .list [.int 1])]⟩

/-- The functions that constants are folded with. -/
def totalFunctions : FunctionTable Dual := (Registry.builtin : Registry Dual).foldingFunctions

/-- The definition of the element of `y`. -/
def copyDefinition : Definition :=
  ⟨⟨"y", [1]⟩, .expr (.ref ⟨"x", [1]⟩), [⟨"x", [1]⟩], "y[1] <- x[1]"⟩

/-- The definition of the sum, with the text of its statement. -/
def sumDefinition (array source : String) : Definition :=
  ⟨⟨"s", []⟩, .expr (.call (.text "sum") [.refArray [⟨array, [1]⟩] [1]]), [⟨array, [1]⟩], source⟩

/-- The unrolled model with the constants that were found. -/
def totalUnrolled (array source : String) (constants : Folding.Constants Dual) :
    Unrolled Dual where
  definitions := [copyDefinition, sumDefinition array source]
  shapes := ⟨⟨[("x", [1])]⟩, ⟨[("x", [1]), ("y", [1]), ("s", [])]⟩⟩
  data := ⟨⟨[(⟨"x", [1]⟩, .int 1)]⟩, ⟨[("x", [1])]⟩⟩
  constants := constants

/-- The sum of the data is a constant. -/
theorem make_totalModel_data :
    make (totalModel "x") totalData totalFunctions = .ok (totalUnrolled "x" "s <- sum(x[])"
      ⟨[(⟨"x", [1]⟩, .int 1), (⟨"y", [1]⟩, .int 1), (⟨"s", []⟩, .int 1)]⟩) :=
  make_eq_ok_iff.mpr ⟨_, rfl, Folding.saturate_eq_ok rfl rfl, rfl, rfl⟩

/-- The sum of the other array is none. -/
theorem make_totalModel_derived :
    make (totalModel "y") totalData totalFunctions = .ok (totalUnrolled "y" "s <- sum(y[])"
      ⟨[(⟨"x", [1]⟩, .int 1), (⟨"y", [1]⟩, .int 1)]⟩) :=
  make_eq_ok_iff.mpr ⟨_, rfl, Folding.saturate_eq_ok rfl rfl, rfl, rfl⟩

/-- With the sum of the data, the constants are all values that data determines. -/
theorem constants_totalModel :
    ∃ u, make (totalModel "x") totalData totalFunctions = .ok u ∧
      (u.definitions.map (·.target)).Nodup ∧
      u.constants.get? ⟨"s", []⟩ = some (.int 1) ∧
      ∀ v n, u.constants.get? v = some n ↔ Derived totalFunctions u (fun _ => True) v n := by
  have hnodup : ((totalUnrolled "x" "s <- sum(x[])" ⟨[(⟨"x", [1]⟩, .int 1), (⟨"y", [1]⟩, .int 1),
      (⟨"s", []⟩, .int 1)]⟩).definitions.map (·.target)).Nodup := by decide
  exact ⟨_, make_totalModel_data, hnodup, rfl,
    (constants_iff_derived make_totalModel_data hnodup).2 (by decide)⟩

/-- The element of `y` is that of `x`. -/
theorem foldsTo_copyDefinition :
    copyDefinition.FoldsTo totalFunctions ⟨[(⟨"x", [1]⟩, .int 1)]⟩ (.int 1) := by
  refine ⟨_, .number (.int 1), rfl, rfl, rfl, ?_⟩
  rfl

/-- The sum of one element is this element. -/
theorem foldsTo_sumDefinition (source : String) :
    (sumDefinition "y" source).FoldsTo totalFunctions ⟨[(⟨"y", [1]⟩, .int 1)]⟩ (.int 1) := by
  refine ⟨_, .array .folding (.scalar (Scalar.ofInt 1)), rfl, rfl, rfl, ?_⟩
  rfl

/-- Data determines the sum of the other array, too. -/
theorem derived_total (source : String) (constants : Folding.Constants Dual) :
    Derived totalFunctions (totalUnrolled "y" source constants) (fun _ => True) ⟨"s", []⟩
      (.int 1) := by
  have hx : Derived totalFunctions (totalUnrolled "y" source constants) (fun _ => True)
      ⟨"x", [1]⟩ (.int 1) := .data (x := .int 1) rfl
  have hy : Derived totalFunctions (totalUnrolled "y" source constants) (fun _ => True)
      ⟨"y", [1]⟩ (.int 1) := by
    refine .logical _ List.mem_cons_self trivial rfl ?_ foldsTo_copyDefinition
    intro ref href k hk
    rw [List.mem_singleton.mp href] at hk ⊢
    cases hk
    exact hx
  refine .logical _ (List.mem_cons_of_mem _ List.mem_cons_self) trivial rfl ?_
    (foldsTo_sumDefinition source)
  intro ref href k hk
  rw [List.mem_singleton.mp href] at hk ⊢
  cases hk
  exact hy

/-- With the sum of the other array they are not: data determines this sum too, but folding passes
over the slot on an array that is no data. -/
theorem not_constant_totalModel :
    ∃ u, make (totalModel "y") totalData totalFunctions = .ok u ∧
      (u.definitions.map (·.target)).Nodup ∧
      Derived totalFunctions u (fun _ => True) ⟨"s", []⟩ (.int 1) ∧
      u.constants.get? ⟨"s", []⟩ = none :=
  ⟨_, make_totalModel_derived, by decide, derived_total _ _, rfl⟩

end Unrolled

end BayesGraph
