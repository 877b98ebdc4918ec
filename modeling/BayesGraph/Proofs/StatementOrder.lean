import BayesGraph.Proofs.Confluence
import BayesGraph.Proofs.Constants
import BayesGraph.Proofs.DataEntries

/-!
# Unrolling in every order of statements

A model declares its variables, so the order of its statements should not matter. It does matter
where a loop bound or a left-hand side has an empty slot on an array whose shape is still growing.
Without such slots, the registration comes to the instances to which the constants lead, whatever
shapes are known by then. Every rearrangement registers the same identities and ends with the same
shapes, and each instance makes the same definition.
-/

set_option autoImplicit false

namespace BayesGraph

open Outcome

/-- What holds of the instances at which a walk starts, and passes on to the bodies of loops, holds
of all instances to which the walk comes. -/
theorem Walker.Trace.forall_sites {α σ : Type} [Scalar α] {w : Walker α σ} {state state' : σ}
    {sites : List Site} {events : List (σ × Site)} (h : w.Trace state sites events state')
    (P : Site → Prop) (hsites : ∀ site ∈ sites, P site)
    (hinner : ∀ site lo hi, P site → ∀ t ∈ site.inner lo hi, P t) : ∀ e ∈ events, P e.2 := by
  induction h with
  | done => simp
  | @step state mid state' site inner rest events hstep _ ih =>
    have hsite := hsites site List.mem_cons_self
    refine List.forall_mem_cons.mpr ⟨hsite, ih fun t ht => ?_⟩
    rcases List.mem_append.mp ht with ht | ht
    · rcases step_eq_ok_iff.mp hstep with ⟨-, -, rfl⟩ | ⟨lo, hi, -, -, rfl⟩ | ⟨_, _, -, -, -, -, rfl⟩
      · cases ht
      · exact hinner site lo hi hsite t ht
      · cases ht
    · exact hsites t (List.mem_cons_of_mem site ht)

/-- The instances of statements and of the statements inside them, whatever the bounds of the loops
around these are. -/
inductive Site.Within (ss : List Stmt) : Site → Prop
  | statement {s : Stmt} (hs : s ∈ ss) : Within ss ⟨s, []⟩
  | inner {site t : Site} {lo hi : Int} (h : Within ss site) (ht : t ∈ site.inner lo hi) :
      Within ss t

/-- A walk through statements comes to their instances only. -/
theorem Walker.Trace.within {α σ : Type} [Scalar α] {w : Walker α σ} {state state' : σ}
    {ss : List Stmt} {events : List (σ × Site)}
    (h : w.Trace state (ss.map fun s => ⟨s, []⟩) events state') : ∀ e ∈ events, e.2.Within ss := by
  refine h.forall_sites _ (fun site hsite => ?_) fun site lo hi hsite t ht => hsite.inner ht
  obtain ⟨s, hs, rfl⟩ := List.mem_map.mp hsite
  exact .statement hs

variable {α : Type} [Scalar α]

namespace Unrolled

variable {functions : FunctionTable α} {C C' : Folding.Constants α} {defined : List Datum}
  {data : Table String (List Nat)} {t t' : ShapeTable} {ids : List Identity}

/-! ## Slots on arrays of data -/

/-- All empty slots on the left of an instance name arrays of data. -/
def OnData (data : Table String (List Nat)) (site : Site) : Prop :=
  ∀ slot ∈ site.leftSlots, data.contains slot.name = true

omit [Scalar α] in
/-- A slot on an array of data is resolved as it is while constants are folded. -/
theorem selection_of_data (ht : t.Describes data ids) (site : Site) {slot : Slot}
    (hslot : data.contains slot.name = true) :
    (context functions C defined t).selection site slot =
      (Folding.context functions data C).selection site slot := by
  obtain ⟨shape, hshape⟩ := (Table.contains_iff data slot.name).mp hslot
  unfold Context.selection Context.wholeDimension Folding.context context
  dsimp only
  rw [(ht.of_data _ shape hshape).1, hshape]

omit [Scalar α] in
/-- The last context of folding knows the constants of unrolling, too. -/
theorem below_folding : (context functions C defined t).Below (Folding.context functions data C) :=
  ⟨rfl, Table.Le.refl _⟩

/-- A loop opens in the unrolling exactly if it opens while constants are folded. -/
theorem opens_iff_of_data (ht : t.Describes data ids) {site : Site} (hsite : OnData data site)
    {lo hi : Int} : (context functions C defined t).Opens site lo hi ↔
      (Folding.context functions data C).Opens site lo hi := by
  refine ⟨?_, opens_of_folding ht⟩
  rintro ⟨start, stop, hrange, hbounds⟩
  refine ⟨start, stop, hrange, ?_⟩
  exact (Context.evalBounds_settles below_folding (Site.Alike.refl site) start stop
    fun slot hslot => Settles.of_eq (selection_of_data ht site
      (hsite slot (Site.leftSlots_of_range hrange ▸ hslot)))).eq_ok hbounds

/-- A left-hand side has the identity in the unrolling that it has while constants are folded. -/
theorem target?_of_data (ht : t.Describes data ids) {site : Site} (hsite : OnData data site) :
    (context functions C defined t).target? site =
      (Folding.context functions data C).target? site := by
  have hslots : ∀ lhs, site.lhs? = some lhs → ∀ slot ∈ lhs.targetSlots,
      (context functions C defined t).selection site slot =
        (Folding.context functions data C).selection site slot :=
    fun lhs hlhs slot hslot =>
      selection_of_data ht site (hsite slot (Site.leftSlots_of_lhs hlhs ▸ hslot))
  refine Option.ext fun id => ?_
  simp only [Context.target?_eq_some]
  refine exists_congr fun lhs => and_congr_right fun hlhs => ⟨fun hid => ?_, fun hid => ?_⟩
  · exact (Context.resolveTarget_settles below_folding (Site.Alike.refl site) lhs
      fun slot hslot => Settles.of_eq (hslots lhs hlhs slot hslot)).eq_ok hid
  · exact (Context.resolveTarget_settles folding_below (Site.Alike.refl site) lhs
      fun slot hslot => Settles.of_eq (hslots lhs hlhs slot hslot).symm).eq_ok hid

/-! ## What is registered -/

/-- A registration appends the identities that the instances on its way define. -/
theorem targets_of_trace {context : ShapeTable → Context α} {p p' : Progress} {sites : List Site}
    {events : List (Progress × Site)} (h : (registering context).Trace p sites events p') :
    p'.targets.reverse = p.targets.reverse ++
      events.filterMap fun e => ((context e.1.shapes).target? e.2).map (e.2, ·) := by
  induction h with
  | done => simp
  | @step p mid p' site inner rest events hstep _ ih =>
    rw [ih, List.filterMap_cons]
    rcases registering_step_eq_ok_iff.mp hstep with ⟨_, _, ⟨_, _, hrange, -⟩, hkept, -⟩ |
        ⟨lhs, id, _, _, hlhs, hid, -, -, rfl, -⟩
    · have hloop : (context p.shapes).target? site = none := by
        rw [Option.eq_none_iff_forall_ne_some]
        intro id hid
        obtain ⟨lhs, hlhs, -⟩ := Context.target?_eq_some.mp hid
        cases (Site.range?_of_lhs hlhs).symm.trans hrange
      simp [hkept, hloop]
    · have htarget : (context p.shapes).target? site = some id :=
        Context.target?_eq_some.mpr ⟨lhs, hlhs, hid⟩
      simp [htarget]

/-- What is registered are instances of the statements, with the identities that they define. -/
theorem registered_of_walk {context : ShapeTable → Context α} {shapes : ShapeTable} {p : Progress}
    {ss : List Stmt} (h : Stmt.walkAll (registering context) [] ⟨shapes, []⟩ ss = .ok p) :
    ∀ t ∈ p.targets, t.1.Within ss ∧ ∃ known, (context known).target? t.1 = some t.2 := by
  obtain ⟨events, htrace⟩ := Stmt.walkAll_eq_ok_iff.mp h
  have htargets := targets_of_trace htrace
  dsimp only at htargets
  rw [List.reverse_nil, List.nil_append] at htargets
  intro t ht
  rw [← List.mem_reverse, htargets] at ht
  obtain ⟨e, he, hsite⟩ := List.mem_filterMap.mp ht
  obtain ⟨id, hid, rfl⟩ := Option.map_eq_some_iff.mp hsite
  exact ⟨htrace.within e he, e.1.shapes, hid⟩

/-- If all slots on the left of some statements name arrays of data, so do those of the instances to
which a context leads. -/
theorem onData_of_reach {ctx : Context α} {ss : List Stmt}
    (hslots : ∀ slot ∈ Stmt.leftSlotsOfAll ss, data.contains slot.name = true) {site : Site}
    (hsite : site ∈ ctx.reach (Folding.start ss)) : OnData data site := by
  intro slot hslot
  obtain ⟨first, hfirst, hslot⟩ := Stmt.leftSlots_of_reach hsite hslot
  obtain ⟨s, hs, rfl⟩ := List.mem_map.mp hfirst
  rw [Stmt.leftSlotsOfAll_eq] at hslots
  exact hslots slot (List.mem_flatMap.mpr ⟨s, hs, hslot⟩)

/-- What a registration of statements registers is what the constants declare, if all slots on the
left name arrays of data; and it comes to all instances to which the constants lead. -/
theorem targets_of_registering {ss : List Stmt} {p : Progress}
    {events : List (Progress × Site)}
    (h : (registering (context functions C defined)).Trace ⟨ShapeTable.ofData data, []⟩
      (Folding.start ss) events p)
    (hslots : ∀ slot ∈ Stmt.leftSlotsOfAll ss, data.contains slot.name = true) :
    p.targets.reverse = (Folding.context functions data C).declared (Folding.start ss) ∧
      events.map (·.2) = (Folding.context functions data C).reach (Folding.start ss) := by
  obtain ⟨-, hsound⟩ := sound_of_trace h (sound_start data)
  have hdata : ∀ e ∈ events, OnData data e.2 := by
    have hstatements : ∀ e ∈ events,
        ∀ slot ∈ e.2.statement.leftSlots, data.contains slot.name = true := by
      refine h.forall_sites
        (fun site => ∀ slot ∈ site.statement.leftSlots, data.contains slot.name = true) ?_ ?_
      · intro site hsite slot hslot
        obtain ⟨s, hs, rfl⟩ := List.mem_map.mp hsite
        rw [Stmt.leftSlotsOfAll_eq] at hslots
        exact hslots slot (List.mem_flatMap.mpr ⟨s, hs, hslot⟩)
      · exact fun site lo hi hsite t ht slot hslot =>
          hsite slot (Stmt.leftSlots_of_inner ht hslot)
    exact fun e he slot hslot => hstatements e he slot (Stmt.leftSlots_subset e.2 hslot)
  -- With left slots sized by the data both contexts open the same loops with the same bounds, so
  -- each list of sites is a sublist of the other.
  have hreach : events.map (·.2) =
      (Folding.context functions data C).reach (Folding.start ss) :=
    List.Sublist.antisymm
      (h.sublist_reach fun e he lo hi => (opens_iff_of_data (hsound e he) (hdata e he)).mp)
      (h.reach_sublist fun e he lo hi => (opens_iff_of_data (hsound e he) (hdata e he)).mpr)
  refine ⟨?_, hreach⟩
  rw [targets_of_trace h, Context.declared, ← hreach, List.filterMap_map]
  refine List.filterMap_congr fun e he => ?_
  rw [target?_of_data (hsound e he) (hdata e he)]
  rfl

/-! ## Rearranged statements -/

/-- Constants that contain each other declare the same. -/
theorem declared_eq (hle : C.Le C') (hge : C'.Le C) (sites : List Site) :
    (Folding.context functions data C).declared sites =
      (Folding.context functions data C').declared sites :=
  List.Sublist.antisymm
    (Context.declared_sublist (Context.reach_sublist_reach fun _ _ _ _ => Folding.opens_of_le hle)
      fun _ _ => Folding.target?_of_le hle)
    (Context.declared_sublist (Context.reach_sublist_reach fun _ _ _ _ => Folding.opens_of_le hge)
      fun _ _ => Folding.target?_of_le hge)

/-- At an instance to which the constants lead, a registration of rearranged statements can take a
step, if it has come across no other identities than a finished registration. -/
theorem exists_registering_step {ss ss' : List Stmt} {p : Progress} {defined' : List Datum}
    {events : List (Progress × Site)} (h : Stmt.Rearranged ss ss') (hle : C.Le C') (hge : C'.Le C)
    (htrace : (registering (context functions C defined)).Trace ⟨ShapeTable.ofData data, []⟩
      (Folding.start ss) events p)
    (hslots : ∀ slot ∈ Stmt.leftSlotsOfAll ss, data.contains slot.name = true) {site : Site}
    (hsite : site ∈ (Folding.context functions data C').reach (Folding.start ss')) {q : Progress}
    (hq : q.Sound data ∧ ∀ id ∈ q.ids, id ∈ p.ids) :
    ∃ mid inner, (registering (context functions C' defined')).step q site = .ok (mid, inner) ∧
      (mid.Sound data ∧ ∀ id ∈ mid.ids, id ∈ p.ids) ∧
      (inner = [] ∨ ∃ lo hi, (Folding.context functions data C').Opens site lo hi ∧
        inner = site.inner lo hi) := by
  obtain ⟨hfinal, hsound⟩ := sound_of_trace htrace (sound_start data)
  obtain ⟨-, hevents⟩ := targets_of_registering htrace hslots
  -- the instance stands, but for its body, on the way of the finished registration
  obtain ⟨site₀, hsite₀, hsame⟩ := Context.exists_rearranged h.symm (Folding.reach_of_le hge hsite)
  have hdata : OnData data site₀ := onData_of_reach hslots hsite₀
  have hdata' : OnData data site :=
    onData_of_reach (fun slot hslot => hslots slot (h.leftSlots_perm.mem_iff.mpr hslot)) hsite
  change site₀ ∈ (Folding.context functions data C).reach (Folding.start ss) at hsite₀
  rw [← hevents] at hsite₀
  obtain ⟨e, he, rfl⟩ := List.mem_map.mp hsite₀
  obtain ⟨rest, later, hlater, -⟩ := htrace.of_mem he
  cases hlater with
  | @step _ mid _ _ inner _ _ hstep hrest =>
    rcases registering_step_eq_ok_iff.mp hstep with ⟨lo, hi, hopens, -, -⟩ |
        ⟨lhs, id, source, shapes, hlhs, hid, hsource, -, rfl, -⟩
    · have hopens' : (Folding.context functions data C').Opens site lo hi :=
        Context.opens_withoutBody hsame
          (Folding.opens_of_le hle ((opens_iff_of_data (hsound e he) hdata).mp hopens))
      exact ⟨q, site.inner lo hi, registering_step_eq_ok_iff.mpr (Or.inl
        ⟨lo, hi, (opens_iff_of_data hq.1 hdata').mpr hopens', rfl, rfl⟩), hq,
        Or.inr ⟨lo, hi, hopens', rfl⟩⟩
    · obtain rfl := Site.eq_of_withoutBody hsame hlhs
      have htarget : (context functions C defined e.1.shapes).target? e.2 = some id :=
        Context.target?_eq_some.mpr ⟨lhs, hlhs, hid⟩
      rw [target?_of_data (hsound e he) hdata] at htarget
      have htarget' : (context functions C' defined' q.shapes).target? e.2 = some id := by
        rw [target?_of_data hq.1 hdata]
        exact Folding.target?_of_le hle htarget
      obtain ⟨lhs', hlhs', hid'⟩ := Context.target?_eq_some.mp htarget'
      have hregistered : id ∈ p.ids :=
        List.mem_map_of_mem ((targets_suffix_of_trace hrest).subset List.mem_cons_self)
      obtain ⟨next, hnext⟩ := hq.1.exists_observe hfinal hq.2 hregistered (some source)
      exact ⟨⟨next, (e.2, id) :: q.targets⟩, [], registering_step_eq_ok_iff.mpr (Or.inr
        ⟨lhs', id, source, next, hlhs', hid', hsource, hnext, rfl, rfl⟩),
        ⟨hq.1.observe hnext, List.forall_mem_cons.mpr ⟨hregistered, hq.2⟩⟩, Or.inl rfl⟩

/-- The definitions have the registered identities as their targets. -/
theorem targets_of_mapM {context : ShapeTable → Context α} {ts : List (Site × Identity)}
    {ds : List Definition} (h : ts.mapM (fun p => define context t p.1 p.2) = .ok ds) :
    ds.map (·.target) = ts.map (·.2) := by
  rw [mapM_eq_ok] at h
  induction h with
  | nil => rfl
  | cons hd _ ih => rw [List.map_cons, List.map_cons, ih, (define_eq_ok hd).1]

/-- With the same constants and the same shapes, an instance makes the same definition. -/
theorem define_of_le {defined' : List Datum} (hle : C.Le C')
    (hshapes : ∀ name, t.shape? name = t'.shape? name) {site : Site} {id : Identity}
    {d : Definition} (h : define (context functions C defined) t site id = .ok d) :
    define (context functions C' defined') t' site id = .ok d := by
  simp only [define, bind_eq_ok, pure_eq_ok, lift_malformed_eq_ok, Context.explain_eq_ok,
    forM_eq_ok, lift_compile_eq_ok] at h ⊢
  obtain ⟨meaning, hmeaning, refs, hrefs, source, hsource, u, hbounds, rfl⟩ := h
  have hslots : ∀ slot, Settles Failure.IsStuck
      ((context functions C defined t).selection site slot)
      ((context functions C' defined' t').selection site slot) := by
    intro slot
    refine Settles.of_eq ?_
    unfold Context.selection Context.wholeDimension context
    simp only [hshapes]
  have hbelow : (context functions C defined t).Below (context functions C' defined' t') :=
    ⟨rfl, hle⟩
  refine ⟨meaning, (resolveMeaning_settles hbelow site fun slot _ => hslots slot).eq_ok hmeaning,
    refs, hrefs, source, hsource, u, fun ref href => ?_, rfl⟩
  have hchecked := hbounds ref href
  rw [ShapeTable.checkBounds_eq_ok_iff] at hchecked ⊢
  simp only [← hshapes]
  exact hchecked

/-- Two unrolled models that differ in the order of the definitions only. -/
structure Rearranged (u u' : Unrolled α) : Prop where
  data : u.data = u'.data
  definitions : u.definitions.Perm u'.definitions
  shapes : ∀ name, u.shapes.shape? name = u'.shapes.shape? name
  constants : ∀ id, u.constants.get? id = u'.constants.get? id

/-- If a model without duplicate definitions can be unrolled, each of its rearrangements can be,
with the same definitions in some other order. -/
theorem make_rearranged {m m' : Model} (h : Stmt.Rearranged m.statements m'.statements)
    {bindings : Table String Datum} {u : Unrolled α} (hu : make m bindings functions = .ok u)
    (hslots : ∀ slot ∈ Stmt.leftSlotsOfAll m.statements, bindings.contains slot.name = true)
    (hnodup : (u.definitions.map (·.target)).Nodup) :
    ∃ u', make m' bindings functions = .ok u' ∧ u.Rearranged u' := by
  obtain ⟨targets, hdata, hconstants, hwalk, hdefinitions⟩ := make_eq_ok_iff.mp hu
  have hslots' : ∀ slot ∈ Stmt.leftSlotsOfAll m.statements,
      u.data.shapes.contains slot.name = true :=
    fun slot hslot => Bindings.contains_shapes hdata (hslots slot hslot)
  obtain ⟨events, htrace⟩ := Stmt.walkAll_eq_ok_iff.mp hwalk
  obtain ⟨htargets, -⟩ := targets_of_registering htrace hslots'
  obtain ⟨hfinal, -⟩ := sound_of_trace htrace (sound_start u.data.shapes)
  have hids : u.definitions.map (·.target) = ((Folding.context functions u.data.shapes
      u.constants).declared (Folding.start m.statements)).map (·.2) := by
    rw [← htargets]
    exact targets_of_mapM hdefinitions
  obtain ⟨C', hC', hge, hle⟩ := Folding.constants_rearranged h hconstants (hids ▸ hnodup)
  -- A step of the other order can fail only at a site that the first one passed with more names
  -- known, so the invariant keeps the names below the targets of the first.
  obtain ⟨p', hruns', -⟩ : ∃ p', (registering (context functions C'
      (Stmt.definedNames m'.statements))).Runs ⟨ShapeTable.ofData u.data.shapes, []⟩
      (Folding.start m'.statements) p' ∧ _ :=
    Walker.exists_runs (fun q => q.Sound u.data.shapes ∧ ∀ id ∈ q.ids, id ∈ targets.map (·.2))
      ⟨sound_start u.data.shapes, by simp [Progress.ids]⟩
      fun site hsite q hq => exists_registering_step h hle hge htrace hslots' hsite hq
  have hwalk' := Stmt.walkAll_eq_ok_iff.mpr hruns'
  obtain ⟨events', htrace'⟩ := hruns'
  obtain ⟨htargets', -⟩ := targets_of_registering htrace' fun slot hslot =>
    hslots' slot (h.leftSlots_perm.mem_iff.mpr hslot)
  obtain ⟨hfinal', -⟩ := sound_of_trace htrace' (sound_start u.data.shapes)
  have hperm : targets.reverse.Perm p'.targets.reverse := by
    rw [htargets, htargets', declared_eq hle hge]
    exact Context.declared_perm h []
  have hmember : ∀ id, id ∈ targets.map (·.2) ↔ id ∈ p'.ids := by
    have htargetsPerm : targets.Perm p'.targets :=
      (List.reverse_perm targets).symm.trans (hperm.trans (List.reverse_perm p'.targets))
    exact fun id => (htargetsPerm.map (·.2)).mem_iff
  have hshapes : ∀ name, u.shapes.shape? name = p'.shapes.shape? name :=
    hfinal.shape?_eq hfinal' hmember
  have hdefinitions' : targets.reverse.mapM (fun t => define (context functions C'
      (Stmt.definedNames m'.statements)) p'.shapes t.1 t.2) = .ok u.definitions := by
    rw [mapM_eq_ok] at hdefinitions ⊢
    exact hdefinitions.imp fun t d hd => define_of_le hle hshapes hd
  obtain ⟨definitions, hpermuted, hsame⟩ := mapM_perm hperm hdefinitions'
  refine ⟨⟨definitions, p'.shapes, u.data, C'⟩, make_eq_ok_iff.mpr
    ⟨p'.targets, hdata, hC', hwalk', hpermuted⟩, rfl, hsame, hshapes,
    fun id => Option.ext fun n => ⟨hle id n, hge id n⟩⟩

end Unrolled

end BayesGraph
