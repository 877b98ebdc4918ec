import BayesGraph.Proofs.DataEntries
import BayesGraph.Proofs.StatementOrder

/-!
# More data

Data can be extended by numbers for entries that are missing in its arrays, and for scalars that it
does not bind. More data means more constants: what was known stays known. If the new numbers belong
to stochastic variables, a model that can be unrolled with both data makes the same definitions with
both.

The registrations of the two unrollings go hand in hand. Where the first one resolves a left-hand
side or a loop bound, the second one does too, because it knows the same constants and, as long as
the same identities are registered, the same shapes: a scalar that only the second one knows from
the data has no dimension that an empty slot could stand for.
-/

set_option autoImplicit false

namespace BayesGraph

open Outcome

namespace Bindings

/-- The second data has the names and shapes of the first one, its numbers, and numbers for the
identities `ids`: entries that are missing in the arrays of the first one, or scalars that it does
not bind. -/
structure Extends (bindings bindings' : Table String Datum) (ids : List Identity) : Prop where
  keys : bindings.keys.Nodup
  keys' : bindings'.keys.Nodup
  shapes : ∀ name d, bindings.get? name = some d →
    ∃ d', bindings'.get? name = some d' ∧ d'.shape? = d.shape?
  scalars : ∀ name d', bindings.get? name = none → bindings'.get? name = some d' →
    d'.shape? = some [] ∧ ⟨name, []⟩ ∈ ids
  missing : ∀ id ∈ ids, given bindings id = none
  supplied : ∀ id ∈ ids, (given bindings' id).isSome = true
  others : ∀ id, id ∉ ids → given bindings' id = given bindings id

/-- What flattened data becomes by more data. -/
structure Grows (data data' : Bindings) (ids : List Identity) : Prop where
  values : data.values.Le data'.values
  shapes : data.shapes.Le data'.shapes
  scalars : ∀ name shape, data.shapes.get? name = none → data'.shapes.get? name = some shape →
    shape = [] ∧ ⟨name, []⟩ ∈ ids
  others : ∀ id, id ∉ ids → data'.values.get? id = data.values.get? id

variable {bindings bindings' : Table String Datum} {data data' : Bindings} {ids : List Identity}

/-- Extended data grows when it is flattened. -/
theorem Extends.grows (h : Extends bindings bindings' ids) (hdata : flatten bindings = .ok data)
    (hdata' : flatten bindings' = .ok data') : data.Grows data' ids := by
  obtain ⟨hvalues, hshapes⟩ := flatten_eq_ok h.keys hdata
  obtain ⟨hvalues', hshapes'⟩ := flatten_eq_ok h.keys' hdata'
  refine ⟨fun id v hv => ?_, fun name shape hshape => ?_, fun name shape hnone hshape => ?_,
    fun id hid => ?_⟩
  · rw [hvalues] at hv
    have hid : id ∉ ids := by
      intro hid
      rw [h.missing id hid] at hv
      cases hv
    rw [hvalues', h.others id hid, hv]
  · rw [hshapes, Option.bind_eq_some_iff] at hshape
    obtain ⟨d, hd, hshape⟩ := hshape
    obtain ⟨d', hd', hsame⟩ := h.shapes name d hd
    rw [hshapes', hd', Option.bind_some, hsame, hshape]
  · rw [hshapes', Option.bind_eq_some_iff] at hshape
    obtain ⟨d', hd', hshape⟩ := hshape
    have hnew : bindings.get? name = none := by
      cases hd : bindings.get? name with
      | none => rfl
      | some d =>
        -- the name would have kept its shape
        obtain ⟨d'', hd'', hsame⟩ := h.shapes name d hd
        rw [hd', Option.some.injEq] at hd''
        rw [hshapes, hd, Option.bind_some, ← hsame, ← hd'', hshape] at hnone
        cases hnone
    obtain ⟨hscalar, hid⟩ := h.scalars name d' hnew hd'
    rw [hshape, Option.some.injEq] at hscalar
    exact ⟨hscalar, hid⟩
  · rw [hvalues, hvalues', h.others id hid]

end Bindings

variable {α : Type} [Scalar α] {functions : FunctionTable α} {data data' : Bindings}
  {ids : List Identity}

/-! ## More constants -/

namespace Folding

variable {K K' L : Constants α} {statements : List Stmt}

omit [Scalar α] in
/-- A slot that can be resolved while constants are folded is resolved alike with more data. -/
theorem selection_grows (h : data.Grows data' ids) (site : Site) (slot : Slot) :
    Settles Failure.IsStuck ((context functions data.shapes K).selection site slot)
      ((context functions data'.shapes K').selection site slot) := by
  unfold Context.selection Context.wholeDimension
  refine Settles.bind ?_ fun shape _ => Settles.refl _
  unfold context
  dsimp only
  cases hshape : data.shapes.get? slot.name with
  | none => exact Or.inr ⟨_, ⟨_, rfl⟩, rfl⟩
  | some shape =>
    rw [h.shapes _ shape hshape]
    exact Settles.refl _

/-- What an instance supports stays supported with more data and more constants. -/
theorem Supports.grows {site : Site} {id : Identity} {n : Number α}
    (hsupports : Supports (context functions data.shapes K) site id n)
    (h : data.Grows data' ids) (hK : K.Le K') :
    Supports (context functions data'.shapes K') site id n :=
  hsupports.of_below ⟨rfl, hK⟩ (selection_grows h site)

/-- With more data and more constants, loops have the bounds that they had. -/
theorem opens_grows (h : data.Grows data' ids) (hK : K.Le K') {site : Site} {lo hi : Int}
    (hopens : (context functions data.shapes K).Opens site lo hi) :
    (context functions data'.shapes K').Opens site lo hi := by
  obtain ⟨start, stop, hrange, hbounds⟩ := hopens
  have hbelow : (context functions data.shapes K).Below (context functions data'.shapes K') :=
    ⟨rfl, hK⟩
  exact ⟨start, stop, hrange, (Context.evalBounds_settles hbelow (Site.Alike.refl site) start stop
    fun slot _ => selection_grows h site slot).eq_ok hbounds⟩

/-- With more data and more constants, at least the same instances are reached. -/
theorem reach_grows (h : data.Grows data' ids) (hK : K.Le K') {sites : List Site} {site : Site}
    (hsite : site ∈ (context functions data.shapes K).reach sites) :
    site ∈ (context functions data'.shapes K').reach sites :=
  (Context.reach_sublist_reach fun _ _ _ _ => opens_grows h hK).subset hsite

/-- The values of more data are more constants. -/
theorem ofData_grows (h : data.Grows data' ids) :
    (ofData data : Constants α).Le (ofData data') := by
  intro id n hn
  unfold ofData at hn ⊢
  rw [Table.get?_map, Option.map_eq_some_iff] at hn ⊢
  obtain ⟨v, hv, rfl⟩ := hn
  exact ⟨v, h.values id v hv, rfl⟩

/-- A value that the data with more numbers has, but not the data, belongs to one of the new
identities. -/
theorem mem_of_ofData (h : data.Grows data' ids) {id : Identity} {n : Number α}
    (hnone : (ofData data : Constants α).get? id = none)
    (hn : (ofData data' : Constants α).get? id = some n) : id ∈ ids := by
  by_contra hid
  unfold ofData at hnone hn
  rw [Table.get?_map] at hnone hn
  rw [h.others id hid, hnone] at hn
  cases hn

/-- More data gives more constants, if the new numbers do not belong to logical variables. Every
constant that is added has support among the final constants, and with the more data too. -/
theorem constants_le (h : data.Grows data' ids)
    (hK : constants functions statements data = .ok K)
    (hK' : IsFixpoint functions statements data' K')
    (hids : ∀ site ∈ (context functions data.shapes K).reach (start statements), ∀ id ∈ ids, ∀ n,
      ¬ Supports (context functions data.shapes K) site id n) : K.Le K' := by
  have hmain : (ofData data).Le K ∧ (K.Le K → K.Le K') := by
    refine constants_induction (P := fun L => (ofData data).Le L ∧ (L.Le K → L.Le K')) hK
      ⟨Table.Le.refl _, fun _ => (ofData_grows h).trans hK'.contains_data⟩ ?_
    rintro L site id n ⟨hdata, hle⟩ hnew hsite hsupports
    have hL : L.Le (L.insert id n) := Table.le_insert n hnew
    refine ⟨hdata.trans hL, fun hinsert => ?_⟩
    have hLK : L.Le K := hL.trans hinsert
    have hsupportsK := hsupports.of_le hLK
    have hsiteK := reach_of_le hLK hsite
    have hnone : (ofData data' : Constants α).get? id = none := by
      cases hget : (ofData data' : Constants α).get? id with
      | none => rfl
      | some n' =>
        have hid := mem_of_ofData h (hdata.get?_eq_none hnew) hget
        exact absurd hsupportsK (hids site hsiteK id hid n)
    refine (hle hLK).insert ?_
    exact hK'.get?_of_supports (reach_grows h (hle hLK) hsite) (hsupports.grows h (hle hLK)) hnone
  exact hmain.2 (Table.Le.refl K)

end Folding

/-! ## The same definitions -/

namespace Unrolled

variable {K K' : Folding.Constants α} {defined : List Datum} {t t' : ShapeTable}
  {registered : List Identity}

omit [Scalar α] in
/-- A table of shapes beside more data has the same arrays of at least one dimension, if the same
identities are registered. -/
theorem shape?_grows (h : data.Grows data' ids) (ht : t.Describes data.shapes registered)
    (ht' : t'.Describes data'.shapes registered) {name : String} {shape : List Nat}
    (hshape : t.shape? name = some shape) (hne : shape ≠ []) : t'.shape? name = some shape := by
  cases hdata : data.shapes.get? name with
  | some own =>
    rw [(ht.of_data name own hdata).1] at hshape
    rw [(ht'.of_data name own (h.shapes name own hdata)).1, hshape]
  | none =>
    cases hdata' : data'.shapes.get? name with
    | some own =>
      -- a new scalar that is registered has no dimensions in the first table either
      obtain ⟨rfl, -⟩ := h.scalars name own hdata hdata'
      have hextent := ht.of_new name shape hdata hshape
      obtain ⟨id, hid, hname⟩ := hextent.used
      have hlength := (hextent.fits id hid hname).length_eq
      have hlength' := ((ht'.of_data name [] hdata').2 id hid hname).length_eq
      rw [hlength'] at hlength
      exact absurd (List.length_eq_zero_iff.mp hlength.symm) hne
    | none => rw [← ht.shape?_eq_of_new ht' (fun _ => Iff.rfl) hdata hdata', hshape]

omit [Scalar α] in
/-- A table of shapes beside more data has the same shapes, if the same identities are registered,
the new ones among them. -/
theorem shape?_eq_of_grows (h : data.Grows data' ids) (ht : t.Describes data.shapes registered)
    (ht' : t'.Describes data'.shapes registered) (hids : ∀ id ∈ ids, id ∈ registered)
    (name : String) : t.shape? name = t'.shape? name := by
  cases hdata : data.shapes.get? name with
  | some own =>
    rw [(ht.of_data name own hdata).1, (ht'.of_data name own (h.shapes name own hdata)).1]
  | none =>
    cases hdata' : data'.shapes.get? name with
    | none => exact ht.shape?_eq_of_new ht' (fun _ => Iff.rfl) hdata hdata'
    | some own =>
      obtain ⟨rfl, hnew⟩ := h.scalars name own hdata hdata'
      have hregistered := hids _ hnew
      rw [(ht'.of_data name [] hdata').1]
      cases hshape : t.shape? name with
      | none => exact absurd rfl (ht.of_none name hshape _ hregistered)
      | some shape =>
        have hlength := ((ht.of_new name shape hdata hshape).fits _ hregistered rfl).length_eq
        rw [List.length_eq_zero_iff.mp hlength.symm]

/-- A slot in a loop bound or a left-hand side that is resolved in one registration is resolved
alike in another one with more data, if both have registered the same identities. -/
theorem selection_eq_of_grows (h : data.Grows data' ids) {p q mid : Progress} {inner : List Site}
    {site : Site} (hstep : (registering (context functions K defined)).step p site =
      .ok (mid, inner)) (hp : p.Sound data.shapes) (hq : q.Sound data'.shapes)
    (hpq : p.targets = q.targets) : ∀ slot ∈ site.leftSlots,
      (context functions K defined p.shapes).selection site slot =
        (context functions K' defined q.shapes).selection site slot := by
  intro slot hslot
  obtain ⟨ps, hps⟩ := selection_of_step hstep hslot
  obtain ⟨-, shape, hshape, hrank⟩ := selection_eq_ok hps
  have hne : shape ≠ [] := by
    rintro rfl
    have hposition := position_lt_rank hslot
    rw [← hrank] at hposition
    exact absurd hposition (Nat.not_lt_zero _)
  have hq' : q.shapes.Describes data'.shapes p.ids := by
    unfold Progress.ids
    rw [hpq]
    exact hq
  have hshape' := shape?_grows h hp hq' hshape hne
  unfold Context.selection Context.wholeDimension context
  simp only [hshape, hshape']

/-- Two registrations, the second one with more data, go on with the same instances and register
the same identity, if they have registered the same identities. -/
theorem step_grows (h : data.Grows data' ids) (hK : K.Le K') {p q mid mid' : Progress}
    {inner inner' : List Site} {site : Site}
    (hstep : (registering (context functions K defined)).step p site = .ok (mid, inner))
    (hstep' : (registering (context functions K' defined)).step q site = .ok (mid', inner'))
    (hp : p.Sound data.shapes) (hq : q.Sound data'.shapes) (hpq : p.targets = q.targets) :
    mid.targets = mid'.targets ∧ inner = inner' := by
  have hslots : ∀ slot ∈ site.leftSlots,
      (context functions K defined p.shapes).selection site slot =
        (context functions K' defined q.shapes).selection site slot :=
    selection_eq_of_grows h hstep hp hq hpq
  have hbelow : (context functions K defined p.shapes).Below
      (context functions K' defined q.shapes) := ⟨rfl, hK⟩
  rcases registering_step_eq_ok_iff.mp hstep with ⟨lo, hi, hopens, rfl, rfl⟩ |
      ⟨lhs, id, -, -, hlhs, hid, -, -, rfl, rfl⟩
  · have hopens' : (context functions K' defined q.shapes).Opens site lo hi := by
      obtain ⟨start, stop, hrange, hbounds⟩ := hopens
      exact ⟨start, stop, hrange, (Context.evalBounds_settles hbelow (Site.Alike.refl site) start
        stop fun slot hslot => Settles.of_eq
          (hslots slot (Site.leftSlots_of_range hrange ▸ hslot))).eq_ok hbounds⟩
    rcases registering_step_eq_ok_iff.mp hstep' with ⟨lo', hi', hopens'', rfl, rfl⟩ |
        ⟨_, _, -, -, hlhs, -⟩
    · obtain ⟨rfl, rfl⟩ := hopens'.unique hopens''
      exact ⟨hpq, rfl⟩
    · obtain ⟨_, _, hrange, -⟩ := hopens
      cases (Site.range?_of_lhs hlhs).symm.trans hrange
  · rcases registering_step_eq_ok_iff.mp hstep' with ⟨_, _, ⟨_, _, hrange, -⟩, -⟩ |
        ⟨lhs', id', -, -, hlhs', hid', -, -, rfl, rfl⟩
    · cases (Site.range?_of_lhs hlhs).symm.trans hrange
    · cases hlhs.symm.trans hlhs'
      have hsame := (Context.resolveTarget_settles hbelow (Site.Alike.refl site) lhs
        fun slot hslot => Settles.of_eq
          (hslots slot (Site.leftSlots_of_lhs hlhs ▸ hslot))).eq_ok hid
      rw [hid', Except.ok.injEq] at hsame
      exact ⟨by rw [hsame, hpq], rfl⟩

/-- Two registrations, the second one with more data, register the same identities at the same
instances. -/
theorem trace_grows (h : data.Grows data' ids) (hK : K.Le K') {p p' q q' : Progress}
    {sites : List Site} {events events' : List (Progress × Site)}
    (htrace : (registering (context functions K defined)).Trace p sites events p')
    (htrace' : (registering (context functions K' defined)).Trace q sites events' q')
    (hp : p.Sound data.shapes) (hq : q.Sound data'.shapes) (hpq : p.targets = q.targets) :
    p'.targets = q'.targets := by
  induction htrace generalizing q events' with
  | done =>
    cases htrace'
    exact hpq
  | step hstep _ ih =>
    cases htrace' with
    | step hstep' hrest' =>
      obtain ⟨hmid, rfl⟩ := step_grows h hK hstep hstep' hp hq hpq
      exact ih hrest' (sound_of_step hstep hp) (sound_of_step hstep' hq) hmid

/-- A left-hand side that is resolved while constants are folded is resolved alike in the
unrolling. -/
theorem target?_of_folding (ht : t.Describes data.shapes registered) {site : Site}
    {id : Identity} (h : (Folding.context functions data.shapes K).target? site = some id) :
    (context functions K defined t).target? site = some id := by
  obtain ⟨lhs, hlhs, hid⟩ := Context.target?_eq_some.mp h
  exact Context.target?_eq_some.mpr ⟨lhs, hlhs, (Context.resolveTarget_settles folding_below
    (Site.Alike.refl site) lhs fun slot _ => selection_settles ht site slot).eq_ok hid⟩

/-- What the constants declare is registered. -/
theorem declared_sublist_targets {ss : List Stmt} {p : Progress}
    {events : List (Progress × Site)}
    (h : (registering (context functions K defined)).Trace ⟨ShapeTable.ofData data.shapes, []⟩
      (Folding.start ss) events p) :
    ((Folding.context functions data.shapes K).declared (Folding.start ss)).Sublist
      p.targets.reverse := by
  obtain ⟨-, hsound⟩ := sound_of_trace h (sound_start data.shapes)
  have hreach : ((Folding.context functions data.shapes K).reach (Folding.start ss)).Sublist
      (events.map (·.2)) :=
    h.reach_sublist fun e he lo hi => opens_of_folding (hsound e he)
  rw [targets_of_trace h]
  refine (hreach.filterMap _).trans ?_
  rw [List.filterMap_map]
  refine filterMap_sublist_of_imp fun e he target htarget => ?_
  obtain ⟨id, hid, rfl⟩ := Option.map_eq_some_iff.mp htarget
  rw [target?_of_folding (hsound e he) hid, Option.map_some]

variable {m : Model} {bindings bindings' : Table String Datum} {u u' : Unrolled α}

/-- If an unrolled model defines no identity twice, its constants are a fixpoint. -/
theorem isFixpoint_of_make (hu : make m bindings functions = .ok u)
    (hnodup : (u.definitions.map (·.target)).Nodup) :
    Folding.IsFixpoint functions m.statements u.data u.constants := by
  obtain ⟨targets, -, hconstants, hwalk, hdefinitions⟩ := make_eq_ok_iff.mp hu
  obtain ⟨events, htrace⟩ := Stmt.walkAll_eq_ok_iff.mp hwalk
  refine Folding.isFixpoint_of_constants hconstants (List.Nodup.sublist
    ((declared_sublist_targets htrace).map _) ?_)
  rw [← targets_of_mapM hdefinitions]
  exact hnodup

/-- Let the new numbers belong to stochastic variables, and let no identity be defined twice. Then a
model that is unrolled with both data has the same definitions with both. -/
theorem definitions_grow (hu : make m bindings functions = .ok u)
    (hu' : make m bindings' functions = .ok u') (hextends : Bindings.Extends bindings bindings' ids)
    (honce : (u.definitions.map (·.target)).Nodup)
    (honce' : (u'.definitions.map (·.target)).Nodup)
    (hids : ∀ id ∈ ids, ∃ d ∈ u.definitions, d.target = id ∧ d.meaning.isStochastic = true) :
    u.data.Grows u'.data ids ∧ u'.definitions = u.definitions := by
  obtain ⟨targets, hdata, hconstants, hwalk, hdefinitions⟩ := make_eq_ok_iff.mp hu
  obtain ⟨targets', hdata', -, hwalk', hdefinitions'⟩ := make_eq_ok_iff.mp hu'
  have hgrows := hextends.grows hdata hdata'
  -- no logical statement supports the value of a new identity
  have hunsupported : ∀ site ∈ (Folding.context functions u.data.shapes u.constants).reach
      (Folding.start m.statements), ∀ id ∈ ids, ∀ n,
      ¬ Folding.Supports (Folding.context functions u.data.shapes u.constants) site id n := by
    intro site hsite id hid n hsupports
    obtain ⟨d, hd, htarget, e, -, hmeaning, -⟩ := definition_of_supports hu hsite hsupports
    obtain ⟨d', hd', htarget', hstochastic⟩ := hids id hid
    obtain rfl : d = d' := List.inj_on_of_nodup_map honce hd hd' (htarget.trans htarget'.symm)
    rw [hmeaning] at hstochastic
    cases hstochastic
  have hK : u.constants.Le u'.constants :=
    Folding.constants_le hgrows hconstants (isFixpoint_of_make hu' honce') hunsupported
  obtain ⟨events, htrace⟩ := Stmt.walkAll_eq_ok_iff.mp hwalk
  obtain ⟨events', htrace'⟩ := Stmt.walkAll_eq_ok_iff.mp hwalk'
  have htargets : targets = targets' :=
    trace_grows hgrows hK htrace htrace' (sound_start _) (sound_start _) rfl
  subst htargets
  obtain ⟨hfinal, -⟩ := sound_of_trace htrace (sound_start u.data.shapes)
  obtain ⟨hfinal', -⟩ := sound_of_trace htrace' (sound_start u'.data.shapes)
  have hregistered : ∀ id ∈ ids, id ∈ targets.map (·.2) := by
    intro id hid
    obtain ⟨d, hd, rfl, -⟩ := hids id hid
    have hmem : d.target ∈ u.definitions.map (·.target) := List.mem_map_of_mem hd
    rw [targets_of_mapM hdefinitions, List.map_reverse, List.mem_reverse] at hmem
    exact hmem
  have hshapes : ∀ name, u.shapes.shape? name = u'.shapes.shape? name :=
    shape?_eq_of_grows hgrows hfinal hfinal' hregistered
  refine ⟨hgrows, ?_⟩
  have hsame : targets.reverse.mapM (fun t => define
      (context functions u'.constants (Stmt.definedNames m.statements)) u'.shapes t.1 t.2) =
      .ok u.definitions :=
    mapM_eq_ok_of_imp hdefinitions fun t _ d hd => define_of_le hK hshapes hd
  rw [hdefinitions', Except.ok.injEq] at hsame
  exact hsame

end Unrolled

end BayesGraph
