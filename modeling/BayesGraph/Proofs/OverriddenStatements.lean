import BayesGraph.Coordinates
import BayesGraph.Proofs.FoldingErrors
import BayesGraph.Proofs.LoopExpansion
import BayesGraph.Proofs.Places

/-!
# Logical statements that data takes the place of

If all identities that a logical statement defines have values in the data, its right-hand side has
no influence on the graph of a model: not on the constants that are folded, not on the nodes and the
leaves, their numbers and their order, and so not on the density. Only the texts of statements and
warnings show it.

Two models that differ in such a right-hand side are followed through all passes. A round of folding
adds nothing at the statement, because an identity with a value stays as it is. The registration
sees left-hand sides only. The definitions that come of the statement differ, but they are
interchangeable (`Definition.Interchangeable`): the data has a value for their target, so their
nodes are observed and have no parents.
-/

set_option autoImplicit false

namespace BayesGraph

open Outcome

variable {α : Type} [Scalar α]

/-! ## Folding beside a statement that adds nothing -/

namespace Folding

variable {functions : FunctionTable α} {shapes : Table String (List Nat)} {K L M M' : Constants α}
  {place : Stmt.Place} {s s' : Stmt} {env env' : LoopValues} {data : Bindings}

/-- A visit keeps the constants that there were. -/
theorem le_of_visits (h : (walker functions shapes).Visits s place K env L env') : K.Le L := by
  induction h with
  | among hbefore => exact le_of_runs hbefore
  | inside hbefore _ _ hdone _ ih => exact ((le_of_runs hbefore).trans (le_of_runs hdone)).trans ih

/-- A value in the data is a constant. -/
theorem contains_ofData {id : Identity} (h : data.values.contains id = true) :
    (ofData data : Constants α).contains id = true := by
  rw [Table.contains_iff] at h ⊢
  obtain ⟨n, hn⟩ := h
  exact ⟨_, by rw [ofData, Table.get?_map, hn]; rfl⟩

/-- The visit of a logical statement whose identity has a value in the data adds nothing. -/
theorem eq_of_visit {comment : List String} {lhs rhs : Expr} (hdata : (ofData data).Le K)
    (h : visit functions shapes K ⟨.assign comment lhs rhs, env⟩ = .ok L)
    (hid : ∀ id, (context functions shapes K).resolveTarget ⟨.assign comment lhs rhs, env⟩ lhs =
      .ok id → data.values.contains id = true) : L = K := by
  rcases visit_cases h with rfl | ⟨id, n, hnew, hsupports, -⟩
  · rfl
  · obtain ⟨_, _, _, _, _, hsite, htarget, -⟩ := hsupports
    cases hsite
    have hknown := hdata.contains (contains_ofData (hid id htarget))
    rw [hnew] at hknown
    cases hknown

/-- Rounds that agree up to the constants that are found in the end find the same constants. -/
theorem saturate_eq {statements statements' : List Stmt} {C C' : Constants α}
    (hround : ∀ L M M', (ofData data).Le L → M.Le C →
      round functions shapes statements L = .ok M →
      round functions shapes statements' L = .ok M' → M = M')
    (hK : (ofData data).Le K) (h : saturate functions shapes statements K = .ok C)
    (h' : saturate functions shapes statements' K = .ok C') : C = C' := by
  have hsame : ∀ L next, (ofData data).Le L → next.Le C →
      round functions shapes statements L = .ok next →
      saturate functions shapes statements' L = .ok C' →
      round functions shapes statements' L = .ok next := by
    intro L next hL hle hnext hC'
    cases hnext' : round functions shapes statements' L with
    | error e =>
      rw [saturate, hnext'] at hC'
      cases hC'
    | ok next' => rw [hround L next next' hL hle hnext hnext']
  induction K using saturate.induct functions shapes statements with
  | case1 K e herror =>
    rw [saturate, herror] at h
    cases h
  | case2 K next hnext hsize =>
    rw [saturate_of_round hnext, if_pos hsize] at h
    cases h
    have hnext' := hsame K C hK (Table.Le.refl C) hnext h'
    rw [saturate_of_round hnext', if_pos hsize] at h'
    exact Except.ok.inj h'
  | case3 K next hnext hsize hless ih =>
    rw [saturate_of_round hnext, if_neg hsize] at h
    have hnext' := hsame K next hK (le_of_saturate h) hnext h'
    rw [saturate_of_round hnext', if_neg hsize] at h'
    exact ih (hK.trans (le_of_runs (Stmt.walkAll_eq_ok_iff.mp hnext))) h h'
  | case4 K next hnext hsize hless => exact absurd (round_less hnext hsize) hless

variable {comment : List String} {lhs rhs rhs' : Expr}

/-- A statement whose identities have values in the data wherever folding comes to it has no
influence on a round. -/
theorem round_eq (hdata : (ofData data).Le K)
    (hid : ∀ m env id, (walker functions shapes).Visits (.assign comment lhs rhs) place K [] m env →
      m.Le L → (context functions shapes m).resolveTarget ⟨.assign comment lhs rhs, env⟩ lhs =
        .ok id → data.values.contains id = true)
    (h : round functions shapes (place.fill (.assign comment lhs rhs)) K = .ok L)
    (h' : round functions shapes (place.fill (.assign comment lhs rhs')) K = .ok M) : L = M := by
  refine (Walker.runs_fill (S := fun m m' => m = m' ∧ (ofData data).Le m) ?_ ?_ place ⟨rfl, hdata⟩
    ?_ (Stmt.walkAll_eq_ok_iff.mp h) (Stmt.walkAll_eq_ok_iff.mp h')).1
  · rintro m _ ⟨rfl, -⟩
    rfl
  · rintro sites m _ n n' ⟨rfl, hm⟩ hn hn'
    exact ⟨hn.unique hn', hm.trans (le_of_runs hn)⟩
  · rintro m _ n n' env hvisits ⟨rfl, hm⟩ hn hn' ⟨rest, hrest⟩
    rw [Walker.runs_visit_iff rfl] at hn hn'
    have hmL : m.Le L := (le_of_runs ((Walker.runs_visit_iff rfl).mpr hn)).trans (le_of_runs hrest)
    have htarget := fun id => hid m env id hvisits hmL
    obtain rfl := eq_of_visit hm hn htarget
    obtain rfl := eq_of_visit hm hn' fun id hid' => htarget id (Context.resolveTarget_congr.mp hid')
    exact ⟨rfl, hm⟩

end Folding

/-! ## The registration of left-hand sides -/

namespace Unrolled

variable {functions : FunctionTable α} {place : Stmt.Place} {s s' : Stmt} {env env' : LoopValues}
  {data : Bindings}

section Registration

variable {context : ShapeTable → Context α} {p p' q q' : Progress} {site : Site}

/-- The same shapes, and the same instances registered, but for those of one statement in the place
of another with identities that have values in the data. -/
structure Progress.Interchangeable (data : Bindings) (s s' : Stmt) (p p' : Progress) : Prop where
  shapes : p.shapes = p'.shapes
  targets : List.Forall₂ (fun t t' => t = t' ∨ ∃ env id, t = (⟨s, env⟩, id) ∧
    t' = (⟨s', env⟩, id) ∧ data.values.contains id = true) p.targets p'.targets

/-- The registration of an instance depends on the shapes only. -/
theorem visitTarget_of_shapes (hshapes : p.shapes = p'.shapes)
    (h : visitTarget context p site = .ok q) : ∃ id, q = ⟨q.shapes, (site, id) :: p.targets⟩ ∧
      visitTarget context p' site = .ok ⟨q.shapes, (site, id) :: p'.targets⟩ := by
  obtain ⟨lhs, id, text, shapes, hlhs, hid, htext, hobserve, rfl⟩ := visitTarget_eq_ok_iff.mp h
  rw [hshapes] at hid hobserve
  exact ⟨id, rfl,
    visitTarget_eq_ok_iff.mpr ⟨lhs, id, text, shapes, hlhs, hid, htext, hobserve, rfl⟩⟩

/-- From interchangeable states, the registration goes on alike through the same instances. -/
theorem bisimilar_interchangeable :
    Walker.Bisimilar (registering context) (registering context)
      (Progress.Interchangeable data s s') Eq := by
  refine ⟨?_⟩
  rintro p p' site _ hp rfl
  have hcontext : (registering context).context p = (registering context).context p' :=
    congrArg context hp.shapes
  refine Walker.agree_step hp Iff.rfl (fun _ => ⟨fun q hq => ?_, fun q' hq' => ?_⟩)
    (fun lo hi => by rw [hcontext]) (iff_of_false not_passes not_passes)
    fun lo hi => List.forall₂_eq_eq_eq ▸ rfl
  · obtain ⟨id, hq, hvisit⟩ := visitTarget_of_shapes hp.shapes hq
    rw [hq]
    exact ⟨_, hvisit, rfl, .cons (Or.inl rfl) hp.targets⟩
  · obtain ⟨id, hq', hvisit⟩ := visitTarget_of_shapes hp.shapes.symm hq'
    rw [hq']
    exact ⟨_, hvisit, rfl, .cons (Or.inl rfl) hp.targets⟩

/-- Runs from interchangeable states end in interchangeable ones. -/
theorem interchangeable_of_runs {sites : List Site}
    (hp : Progress.Interchangeable data s s' p p') (h : (registering context).Runs p sites q)
    (h' : (registering context).Runs p' sites q') : Progress.Interchangeable data s s' q q' := by
  obtain ⟨last, hlast, hq⟩ :=
    bisimilar_interchangeable.runs hp (List.forall₂_same.mpr fun _ _ => rfl) h
  exact h'.unique hlast ▸ hq

variable {comment : List String} {lhs rhs rhs' : Expr}

/-- A statement whose identity has a value in the data is registered interchangeably with another
right-hand side. -/
theorem interchangeable_of_visits
    (hp : Progress.Interchangeable data (.assign comment lhs rhs) (.assign comment lhs rhs') p p')
    (hid : ∀ id, (context p.shapes).resolveTarget ⟨.assign comment lhs rhs, env⟩ lhs = .ok id →
      data.values.contains id = true)
    (h : visitTarget context p ⟨.assign comment lhs rhs, env⟩ = .ok q)
    (h' : visitTarget context p' ⟨.assign comment lhs rhs', env⟩ = .ok q') :
    Progress.Interchangeable data (.assign comment lhs rhs) (.assign comment lhs rhs') q q' := by
  obtain ⟨_, id, _, shapes, hlhs, htarget, -, hobserve, rfl⟩ := visitTarget_eq_ok_iff.mp h
  obtain ⟨_, id', _, shapes', hlhs', htarget', -, hobserve', rfl⟩ := visitTarget_eq_ok_iff.mp h'
  cases hlhs
  cases hlhs'
  rw [← hp.shapes] at htarget' hobserve'
  rw [Context.resolveTarget_congr.mp htarget, Except.ok.injEq] at htarget'
  subst htarget'
  rw [observe_statement hobserve, Except.ok.injEq] at hobserve'
  subst hobserve'
  exact ⟨rfl, .cons (Or.inr ⟨env, id, rfl, rfl, hid id htarget⟩) hp.targets⟩

/-- A statement whose identities have values in the data wherever the registration comes to it is
registered interchangeably with another right-hand side. -/
theorem interchangeable_of_fill
    (hid : ∀ m env id,
      (registering context).Visits (.assign comment lhs rhs) place p [] m env →
      (context m.shapes).resolveTarget ⟨.assign comment lhs rhs, env⟩ lhs = .ok id →
      data.values.contains id = true)
    (h : Stmt.walkAll (registering context) [] p (place.fill (.assign comment lhs rhs)) = .ok q)
    (h' : Stmt.walkAll (registering context) [] p (place.fill (.assign comment lhs rhs')) =
      .ok q') :
    Progress.Interchangeable data (.assign comment lhs rhs) (.assign comment lhs rhs') q q' := by
  refine Walker.runs_fill (fun m m' hm => congrArg context hm.shapes)
    (fun sites m m' n n' hm => interchangeable_of_runs hm) place
    ⟨rfl, List.forall₂_same.mpr fun t _ => Or.inl rfl⟩ ?_ (Stmt.walkAll_eq_ok_iff.mp h)
    (Stmt.walkAll_eq_ok_iff.mp h')
  intro m m' n n' env hvisits hm hn hn' _
  rw [Walker.runs_visit_iff rfl] at hn hn'
  exact interchangeable_of_visits hm (fun id => hid m env id hvisits) hn hn'

end Registration

/-- Wherever folding comes to a place, the registration comes with the same values of the loop
variables, in a state that is sound. -/
theorem visits_of_folding {shapes : Table String (List Nat)} {C K L : Folding.Constants α}
    {defined : List Datum} {p q : Progress}
    (h : (Folding.walker functions shapes).Visits s place K env L env') (hL : L.Le C)
    (hp : p.Sound shapes)
    (hq : (registering (context functions C defined)).Runs p (env.sites (place.fill s)) q) :
    ∃ m, (registering (context functions C defined)).Visits s place p env m env' ∧
      m.Sound shapes := by
  induction h generalizing p q with
  | among _ =>
    obtain ⟨m, -, hm, -, -⟩ := Walker.runs_around_iff.mp hq
    exact ⟨m, .among hm, sound_of_runs hm hp⟩
  | @inside before after comment var start stop body state outer turn mid env env' lo hi i done rest
      _ hopens hturns hdone hbody ih =>
    obtain ⟨m, n, hm, hn, -⟩ := Walker.runs_around_iff.mp hq
    have hsound := sound_of_runs hm hp
    have hle := (Folding.le_of_runs hdone).trans ((Folding.le_of_visits hbody).trans hL)
    have hopens' : ((registering (context functions C defined)).context m).Opens _ lo hi :=
      opens_of_folding hsound (Folding.opens_of_le hle hopens)
    rcases Walker.runs_loop_iff.mp hn with ⟨lo', hi', hopens'', hruns⟩ | ⟨hpasses, -⟩
    · obtain ⟨rfl, rfl⟩ := hopens'.unique hopens''
      rw [hturns, List.flatMap_append, List.flatMap_cons, Walker.runs_append_iff] at hruns
      obtain ⟨turn', hdone', hruns⟩ := hruns
      obtain ⟨after, hafter, -⟩ := Walker.runs_append_iff.mp hruns
      obtain ⟨m', hvisits, hm'⟩ := ih hL (sound_of_runs hdone' hsound) hafter
      exact ⟨m', .inside hm hopens' hturns hdone' hvisits, hm'⟩
    · exact absurd hpasses not_passes

/-- When the left-hand sides are registered, the statement at a place is visited with an
identity. -/
def RegistersAt (functions : FunctionTable α) (u : Unrolled α) (place : Stmt.Place) (s : Stmt)
    (id : Identity) : Prop :=
  let context := context functions u.constants (Stmt.definedNames (place.fill s))
  ∃ p env lhs, (⟨s, env⟩ : Site).lhs? = some lhs ∧
    (registering context).Visits s place ⟨ShapeTable.ofData u.data.shapes, []⟩ [] p env ∧
    (context p.shapes).resolveTarget ⟨s, env⟩ lhs = .ok id

end Unrolled

omit [Scalar α] in
/-- Two definitions that are the same, or that data takes the place of. -/
def Definition.Interchangeable (data : Bindings) (d d' : Definition) : Prop :=
  d = d' ∨ d.target = d'.target ∧ d.isOverridden data = true ∧ d'.isOverridden data = true

namespace Unrolled

variable {functions : FunctionTable α} {data : Bindings} {place : Stmt.Place}
  {comment : List String} {lhs rhs rhs' : Expr}

/-- The definition of a logical statement with a value in the data is overridden. -/
theorem isOverridden_of_define {context : ShapeTable → Context α} {shapes : ShapeTable}
    {env : LoopValues} {id : Identity} {d : Definition}
    (h : define context shapes ⟨.assign comment lhs rhs, env⟩ id = .ok d)
    (hid : data.values.contains id = true) : d.target = id ∧ d.isOverridden data = true := by
  obtain ⟨htarget, hmeaning, -⟩ := define_eq_ok h
  rw [Context.explain_eq_ok] at hmeaning
  unfold resolveMeaning at hmeaning
  simp only [bind_eq_ok, pure_eq_ok] at hmeaning
  obtain ⟨e, -, hmeaning⟩ := hmeaning
  refine ⟨htarget, ?_⟩
  unfold Definition.isOverridden
  rw [← hmeaning, htarget, hid]
  rfl

variable {name : String} {bindings : Table String Datum} {u u' : Unrolled α}

/-- Wherever folding comes to a statement that is registered only with values in the data, its
identity has a value. -/
theorem contains_of_folding
    (h : make ⟨place.fill (.assign comment lhs rhs), name⟩ bindings functions = .ok u)
    (hid : ∀ id, u.RegistersAt functions place (.assign comment lhs rhs) id →
      u.data.values.contains id = true) {K L : Folding.Constants α} {env : LoopValues}
    {id : Identity} (hvisits : (Folding.walker functions u.data.shapes).Visits
      (.assign comment lhs rhs) place K [] L env) (hL : L.Le u.constants)
    (htarget : (Folding.context functions u.data.shapes L).resolveTarget
      ⟨.assign comment lhs rhs, env⟩ lhs = .ok id) : u.data.values.contains id = true := by
  obtain ⟨targets, -, -, hwalk, -⟩ := make_eq_ok_iff.mp h
  obtain ⟨p, hp, hsound⟩ := visits_of_folding hvisits hL (sound_start u.data.shapes)
    (Stmt.walkAll_eq_ok_iff.mp hwalk)
  have hsite := Site.Alike.refl ⟨.assign comment lhs rhs, env⟩
  have hfolded := (Context.resolveTarget_settles (Folding.context_below hL) hsite lhs
    fun slot _ => Settles.of_eq (Folding.selection_eq _ slot)).eq_ok htarget
  refine hid id ⟨p, env, lhs, rfl, hp, ?_⟩
  exact (Context.resolveTarget_settles folding_below hsite lhs
    fun slot _ => selection_settles hsound _ slot).eq_ok hfolded

/-- Two models that differ in the right-hand side of a logical statement whose identities have
values in the data unroll to the same constants and to interchangeable definitions. -/
theorem interchangeable_of_make
    (h : make ⟨place.fill (.assign comment lhs rhs), name⟩ bindings functions = .ok u)
    (h' : make ⟨place.fill (.assign comment lhs rhs'), name⟩ bindings functions = .ok u')
    (hid : ∀ id, u.RegistersAt functions place (.assign comment lhs rhs) id →
      u.data.values.contains id = true) :
    u'.data = u.data ∧ u'.constants = u.constants ∧
      List.Forall₂ (Definition.Interchangeable u.data) u.definitions u'.definitions := by
  obtain ⟨targets, hdata, hconstants, hwalk, hdefine⟩ := make_eq_ok_iff.mp h
  obtain ⟨targets', hdata', hconstants', hwalk', hdefine'⟩ := make_eq_ok_iff.mp h'
  have hsame : u'.data = u.data := Except.ok.inj (hdata'.symm.trans hdata)
  rw [hsame] at hconstants' hwalk'
  have hfolding : u'.constants = u.constants := by
    refine (Folding.saturate_eq (fun L M M' hL hM hround hround' => ?_) (Table.Le.refl _) hconstants
      hconstants').symm
    exact Folding.round_eq hL (fun m env id hvisits hle => contains_of_folding h hid hvisits
      (hle.trans hM)) hround hround'
  have hnames : Stmt.definedNames (place.fill (.assign comment lhs rhs')) =
      Stmt.definedNames (place.fill (.assign comment lhs rhs)) :=
    Stmt.Place.definedNames_fill (by rfl) place
  dsimp only at hwalk hwalk' hdefine hdefine'
  rw [hfolding, hnames] at hwalk' hdefine'
  have hprogress := interchangeable_of_fill
    (fun p env id hvisits htarget => hid id ⟨p, env, lhs, rfl, hvisits, htarget⟩) hwalk hwalk'
  have hshapes : u.shapes = u'.shapes := hprogress.shapes
  refine ⟨hsame, hfolding, forall₂_of_mapM (List.rel_reverse hprogress.targets) ?_ hdefine hdefine'⟩
  rintro t t' d d' (rfl | ⟨env, id, rfl, rfl, hcontains⟩) hd hd'
  · rw [← hshapes, hd, Except.ok.injEq] at hd'
    exact Or.inl hd'
  · obtain ⟨htarget, hoverridden⟩ := isOverridden_of_define hd hcontains
    obtain ⟨htarget', hoverridden'⟩ := isOverridden_of_define hd' hcontains
    exact Or.inr ⟨htarget.trans htarget'.symm, hoverridden, hoverridden'⟩

end Unrolled

/-! ## The graph of interchangeable definitions -/

/-- The node with an empty text in place of the text of its statement. -/
def Node.withoutText (n : Node) : Node := { n with statement := n.statement.map fun _ => "" }

namespace Graph

/-- The graph with empty texts in place of the texts of statements and warnings. -/
def withoutTexts (g : Graph) : Graph where
  nodes := g.nodes.map Node.withoutText
  order := g.order
  parameters := g.parameters
  warnings := g.warnings.map fun _ => ""

section Interchangeable

omit [Scalar α]

variable {r : Registry α} {data : Bindings} {d d' : Definition} {ds ds' : List Definition}

/-- Data that takes the place of a definition has a value for its target, and its node is observed
with this value. -/
theorem nodeOf_overridden {n : Node} (h : d.isOverridden data = true)
    (hn : nodeOf r data d = .ok n) : ∃ v, data.values.get? d.target = some v ∧
      n = { id := d.target, role := .observed v none, statement := some d.source } := by
  unfold Definition.isOverridden at h
  rw [Bool.and_eq_true, Table.contains_iff] at h
  obtain ⟨hlogical, v, hv⟩ := h
  unfold nodeOf roleOf at hn
  cases hmeaning : d.meaning with
  | dist law =>
    rw [hmeaning] at hlogical
    cases hlogical
  | expr e =>
    rw [hmeaning, hv] at hn
    simp only [ok_bind, bind_eq_ok, pure_eq_ok] at hn
    obtain ⟨-, -, rfl⟩ := hn
    exact ⟨v, hv, rfl⟩

/-- The nodes of interchangeable definitions differ in their texts only. -/
theorem nodeOf_interchangeable {n n' : Node} (h : d.Interchangeable data d')
    (hn : nodeOf r data d = .ok n) (hn' : nodeOf r data d' = .ok n') :
    n.withoutText = n'.withoutText := by
  rcases h with rfl | ⟨htarget, hd, hd'⟩
  · rw [hn, Except.ok.injEq] at hn'
    rw [hn']
  · obtain ⟨v, hv, rfl⟩ := nodeOf_overridden hd hn
    obtain ⟨v', hv', rfl⟩ := nodeOf_overridden hd' hn'
    rw [htarget, hv', Option.some.injEq] at hv
    rw [Node.withoutText, Node.withoutText, htarget, hv]
    rfl

/-- Interchangeable definitions have the same target. -/
theorem target_of_interchangeable (h : d.Interchangeable data d') : d.target = d'.target := by
  rcases h with rfl | ⟨htarget, -⟩
  · rfl
  · exact htarget

/-- Interchangeable definitions are both overridden, or neither of them is. -/
theorem isOverridden_of_interchangeable (h : d.Interchangeable data d') :
    d.isOverridden data = d'.isOverridden data := by
  rcases h with rfl | ⟨-, hd, hd'⟩
  · rfl
  · rw [hd, hd']

/-- Interchangeable definitions are linked alike. -/
theorem add_interchangeable (h : d.Interchangeable data d') (links : Links) :
    links.add data d = links.add data d' := by
  rcases h with rfl | ⟨-, hd, hd'⟩
  · rfl
  · unfold Links.add Definition.usedRefs
    rw [if_pos hd, if_pos hd']
    rfl

/-- Interchangeable definitions are linked alike. -/
theorem foldlM_add_interchangeable (h : List.Forall₂ (Definition.Interchangeable data) ds ds')
    (links : Links) : ds.foldlM (Links.add data) links = ds'.foldlM (Links.add data) links := by
  induction h generalizing links with
  | nil => rfl
  | cons hd _ ih =>
    rw [List.foldlM_cons, List.foldlM_cons, add_interchangeable hd]
    exact congrArg (_ >>= ·) (funext ih)

/-- Interchangeable definitions have the same targets. -/
theorem map_target_eq (h : List.Forall₂ (Definition.Interchangeable data) ds ds') :
    ds.map (·.target) = ds'.map (·.target) := by
  rw [← List.forall₂_eq_eq_eq, List.forall₂_map_left_iff, List.forall₂_map_right_iff]
  exact h.imp fun _ _ => target_of_interchangeable

/-- An identity is not found among definitions if it is the target of none. -/
theorem find?_target_eq_none_iff (ds : List Definition) (id : Identity) :
    (ds.find? fun e => decide (e.target = id)) = none ↔ id ∉ ds.map (·.target) := by
  rw [List.find?_eq_none, List.mem_map]
  simp

/-- The first definitions of interchangeable lists are interchangeable, and equally many others are
reported. -/
theorem firstDefinitions_interchangeable
    (h : List.Forall₂ (Definition.Interchangeable data) ds ds') :
    List.Forall₂ (Definition.Interchangeable data) (firstDefinitions ds).1
        (firstDefinitions ds').1 ∧
      (firstDefinitions ds).2.length = (firstDefinitions ds').2.length := by
  unfold firstDefinitions
  refine List.rel_foldl (P := fun (state state' : List Definition × List String) =>
    List.Forall₂ (Definition.Interchangeable data) state.1 state'.1 ∧
      state.2.length = state'.2.length) ?_ ⟨.nil, rfl⟩ h
  rintro ⟨firsts, messages⟩ ⟨firsts', messages'⟩ ⟨hfirsts, hmessages⟩ d d' hd
  have hfound : (firsts.find? fun e => decide (e.target = d.target)) = none ↔
      (firsts'.find? fun e => decide (e.target = d'.target)) = none := by
    rw [find?_target_eq_none_iff, find?_target_eq_none_iff, map_target_eq hfirsts,
      target_of_interchangeable hd]
  dsimp only at hfirsts hmessages ⊢
  cases hfirst : firsts.find? fun e => decide (e.target = d.target) with
  | none =>
    rw [hfound.mp hfirst]
    exact ⟨List.rel_append hfirsts (.cons hd .nil), hmessages⟩
  | some e =>
    cases hfirst' : firsts'.find? fun e => decide (e.target = d'.target) with
    | none =>
      rw [hfound.mpr hfirst'] at hfirst
      cases hfirst
    | some e' =>
      refine ⟨hfirsts, ?_⟩
      rw [List.length_append, List.length_append, hmessages]
      rfl

/-- Equally many interchangeable definitions are overridden. -/
theorem length_overridden (h : List.Forall₂ (Definition.Interchangeable data) ds ds') :
    (ds.filter (·.isOverridden data)).length = (ds'.filter (·.isOverridden data)).length := by
  induction h with
  | nil => rfl
  | cons hd _ ih =>
    rw [List.filter_cons, List.filter_cons, isOverridden_of_interchangeable hd]
    split
    · rw [List.length_cons, List.length_cons, ih]
    · exact ih

end Interchangeable

/-- Nodes that differ in their texts only are assembled to graphs that differ in their texts
only. -/
theorem assemble_withoutTexts {nodes nodes' : List Node} {warnings warnings' : List String}
    {g g' : Graph} (hnodes : nodes.map Node.withoutText = nodes'.map Node.withoutText)
    (hwarnings : warnings.length = warnings'.length) (hg : assemble nodes warnings = .ok g)
    (hg' : assemble nodes' warnings' = .ok g') : g.withoutTexts = g'.withoutTexts := by
  have hparents : nodes.map (·.parents) = nodes'.map (·.parents) := by
    have hmap := congrArg (List.map (·.parents)) hnodes
    rwa [List.map_map, List.map_map] at hmap
  have hparameter : ∀ i : Nat, ((nodes[i]?).any fun n => n.role.isParameter) =
      (nodes'[i]?).any fun n => n.role.isParameter := by
    intro i
    have hi := congrArg (fun ns : List Node => (ns[i]?).any fun n => n.role.isParameter) hnodes
    simp only [List.getElem?_map, Option.any_map] at hi
    exact hi
  have hempty : (warnings.map fun _ => "") = warnings'.map fun _ => "" := by
    rw [List.map_const', List.map_const', hwarnings]
  unfold assemble at hg hg'
  dsimp only at hg hg'
  rw [← hparents] at hg'
  simp only [← hparameter] at hg'
  split at hg
  · cases hg
  · next order horder =>
    rw [horder] at hg'
    cases hg
    cases hg'
    unfold withoutTexts
    rw [hnodes, hempty]

/-- The links do not depend on the texts. -/
theorem map_withoutText_zipWith (nodes : List Node) (parents : List (List Nat)) :
    (List.zipWith (fun (n : Node) ps => { n with parents := ps }) nodes parents).map
        Node.withoutText =
      List.zipWith (fun (n : Node) ps => { n with parents := ps }) (nodes.map Node.withoutText)
        parents := by
  rw [List.zipWith_map_left, List.map_zipWith]
  rfl

omit [Scalar α] in
/-- The graphs of unrolled models with interchangeable definitions differ in their texts only. -/
theorem withoutTexts_ofUnrolled {β : Type} {r : Registry α} {u u' : Unrolled β} {g g' : Graph}
    (hdata : u'.data = u.data)
    (h : List.Forall₂ (Definition.Interchangeable u.data) u.definitions u'.definitions)
    (hg : ofUnrolled u r = .ok g) (hg' : ofUnrolled u' r = .ok g') :
    g.withoutTexts = g'.withoutTexts := by
  simp only [ofUnrolled, bind_eq_ok, hdata] at hg hg'
  obtain ⟨nodes, hnodes, links, hlinks, hg⟩ := hg
  obtain ⟨nodes', hnodes', links', hlinks', hg'⟩ := hg'
  obtain ⟨hfirsts, hmessages⟩ := firstDefinitions_interchangeable h
  have hsame := forall₂_of_mapM hfirsts (fun _ _ _ _ => nodeOf_interchangeable) hnodes hnodes'
  have hnodesSame : nodes.map Node.withoutText = nodes'.map Node.withoutText := by
    rw [← List.forall₂_eq_eq_eq, List.forall₂_map_left_iff, List.forall₂_map_right_iff]
    exact hsame
  obtain rfl : links' = links := by
    rw [map_target_eq hfirsts, foldlM_add_interchangeable hfirsts, hlinks', Except.ok.injEq]
      at hlinks
    exact hlinks
  refine assemble_withoutTexts ?_ ?_ hg hg'
  · rw [List.map_append, List.map_append, map_withoutText_zipWith, map_withoutText_zipWith,
      hnodesSame]
  · rw [List.length_append, List.length_append, List.length_map, List.length_map, hmessages,
      length_overridden hfirsts]

/-! ## The density without texts -/

/-- Without texts, identities have the same numbers. -/
theorem index?_withoutTexts (g : Graph) (id : Identity) :
    g.withoutTexts.index? id = g.index? id := by
  unfold index? withoutTexts
  rw [List.findIdx?_map]
  rfl

/-- Without texts, a node is visited alike. -/
theorem visit_withoutTexts (g : Graph) (r : Registry α) (mode : EvaluationMode) (theta : List α)
    (ev : Evaluation α) (i : Nat) :
    g.withoutTexts.visit r mode theta ev i = g.visit r mode theta ev i := by
  have henvironment : g.withoutTexts.environment r mode.calls ev.slots =
      g.environment r mode.calls ev.slots := by
    unfold environment
    simp only [index?_withoutTexts]
  unfold visit
  rw [henvironment]
  have hnode : g.withoutTexts.nodes[i]? = (g.nodes[i]?).map Node.withoutText := List.getElem?_map ..
  rw [hnode]
  cases g.nodes[i]? with
  | none => rfl
  | some n => rfl

/-- The density of a graph does not depend on its texts. -/
theorem logDensity_withoutTexts (g : Graph) (r : Registry α) (transformed : Bool)
    (calls : CallMode) (theta : List α) :
    g.withoutTexts.logDensity r transformed calls theta =
      g.logDensity r transformed calls theta := by
  have hevaluate : g.withoutTexts.evaluate r { transformed, calls } theta =
      g.evaluate r { transformed, calls } theta := by
    unfold evaluate
    exact foldlM_congr fun i _ ev => visit_withoutTexts g r _ theta ev i
  unfold logDensity
  rw [hevaluate]

/-! ## Two models with different right-hand sides -/

/-- If data has values for all identities that a logical statement defines, its right-hand side has
no influence: with another one, the model has the same graph but for the texts of statements and
warnings, the same constants and the same density at every vector of coordinates. -/
theorem build_overridden {place : Stmt.Place} {comment : List String} {lhs rhs rhs' : Expr}
    {name : String} {bindings : Table String Datum} {r : Registry α} {u : Unrolled α} {g g' : Graph}
    (hu : Unrolled.make ⟨place.fill (.assign comment lhs rhs), name⟩ bindings r.foldingFunctions =
      .ok u)
    (hdata : ∀ id, u.RegistersAt r.foldingFunctions place (.assign comment lhs rhs) id →
      u.data.values.contains id = true)
    (hg : (build ⟨place.fill (.assign comment lhs rhs), name⟩ bindings r).collect.1 = .ok g)
    (hg' : (build ⟨place.fill (.assign comment lhs rhs'), name⟩ bindings r).collect.1 = .ok g') :
    g.withoutTexts = g'.withoutTexts ∧
    (∃ u', Unrolled.make ⟨place.fill (.assign comment lhs rhs'), name⟩ bindings
      r.foldingFunctions = .ok u' ∧ u'.constants = u.constants) ∧
    ∀ transformed calls theta,
      g.logDensity r transformed calls theta = g'.logDensity r transformed calls theta := by
  obtain ⟨v, hv, hg⟩ := ofUnrolled_of_build hg
  obtain ⟨u', hu', hg'⟩ := ofUnrolled_of_build hg'
  obtain rfl : v = u := Except.ok.inj (hv.symm.trans hu)
  obtain ⟨hsame, hconstants, hdefinitions⟩ := Unrolled.interchangeable_of_make hu hu' hdata
  have htexts := withoutTexts_ofUnrolled hsame hdefinitions hg hg'
  refine ⟨htexts, ⟨u', hu', hconstants⟩, fun transformed calls theta => ?_⟩
  rw [← logDensity_withoutTexts g, ← logDensity_withoutTexts g', htexts]

/-- A normal distribution with unit precision. -/
def coveredLaw (mean : Expr) : Law :=
  .dist { name := .text "dnorm", params := [mean, .literal (.int 1)] }

/-- The body of a loop, with a parameter and an observation behind the loop. -/
def coveredPlace : Stmt.Place :=
  .inside [] [] (.text "i") (.literal (.int 1)) (.literal (.int 2)) (.among [] [])
    [.sample [] (.var (.text "mu")) (coveredLaw (.literal (.int 0))),
    .sample [] (.var (.text "y")) (coveredLaw (.index (.text "z") [.literal (.int 1)]))]

/-- The entry of `z` at the loop variable. -/
def coveredEntry : Expr := .index (.text "z") [.var (.text "i")]

/-- A statement about the entry of `z` at the loop variable. -/
def coveredStatement (rhs : Expr) : Stmt := .assign [] coveredEntry rhs

/-- A model with a statement about the entries of `z`. -/
def coveredModel (rhs : Expr) : Model := ⟨coveredPlace.fill (coveredStatement rhs), "model"⟩

/-- Values for all entries of `z`, for `y`, and for `w`. -/
def coveredData : Table String Datum :=
  ⟨[("z", .list [.int 2, .int 3]), ("y", .int 1), ("w", .int 4)]⟩

/-- The values under their identities. -/
def coveredBindings : Bindings :=
  ⟨⟨[(⟨"z", [1]⟩, .int 2), (⟨"z", [2]⟩, .int 3), (⟨"y", []⟩, .int 1), (⟨"w", []⟩, .int 4)]⟩,
    ⟨[("z", [2]), ("y", []), ("w", [])]⟩⟩

/-- The statement in the loop is registered with the two entries of `z`. -/
theorem registersAt_coveredPlace {u : Unrolled Dual} (hdata : u.data = coveredBindings) (rhs : Expr)
    {id : Identity} (h : u.RegistersAt (Registry.builtin : Registry Dual).foldingFunctions
      coveredPlace (coveredStatement rhs) id) : u.data.values.contains id = true := by
  obtain ⟨p, env, lhs, hlhs, hvisits, htarget⟩ := h
  cases hlhs
  rcases hvisits with _ | ⟨-, hopens, hturns, -, hbody⟩
  rcases hbody with ⟨-⟩ | _
  obtain ⟨rfl, rfl⟩ := hopens.unique (show Context.Opens _ _ 1 2 from ⟨_, _, rfl, rfl⟩)
  rename_i i done rest
  have hturn : i ∈ done ++ i :: rest := List.mem_append_right done List.mem_cons_self
  rw [← hturns, show integersBetween 1 2 = [1, 2] from rfl, List.mem_pair] at hturn
  rw [hdata]
  rcases hturn with rfl | rfl
  · obtain rfl : ⟨"z", [1]⟩ = id := Except.ok.inj htarget
    rfl
  · obtain rfl : ⟨"z", [2]⟩ = id := Except.ok.inj htarget
    rfl

/-- In place of the parameter, the right-hand side can be one that closes a cycle and refers to a
variable of the data that nothing else refers to. Only the texts change. -/
theorem build_overridden_coveredModel : ∃ u g g',
    Unrolled.make (coveredModel (.var (.text "mu"))) coveredData
      (Registry.builtin : Registry Dual).foldingFunctions = .ok u ∧
    (∀ id, u.RegistersAt (Registry.builtin : Registry Dual).foldingFunctions coveredPlace
      (coveredStatement (.var (.text "mu"))) id → u.data.values.contains id = true) ∧
    (build (coveredModel (.var (.text "mu"))) coveredData
      (Registry.builtin : Registry Dual)).collect.1 = .ok g ∧
    (build (coveredModel (.mul coveredEntry (.var (.text "w")))) coveredData
      (Registry.builtin : Registry Dual)).collect.1 = .ok g' ∧
    g.warnings ≠ g'.warnings ∧ g.withoutTexts = g'.withoutTexts ∧
    ∀ transformed calls theta, g.logDensity (Registry.builtin : Registry Dual) transformed calls
      theta = g'.logDensity (Registry.builtin : Registry Dual) transformed calls theta := by
  have hflatten : Bindings.flatten coveredData = .ok coveredBindings := rfl
  have hconstants : ∀ rhs, Folding.constants (Registry.builtin : Registry Dual).foldingFunctions
      (coveredModel rhs).statements coveredBindings =
        .ok (coveredBindings.values.map fun n => n.map Scalar.ofDouble) :=
    fun rhs => Folding.saturate_eq_ok rfl rfl
  obtain ⟨g, hg, g', hg', hdiffers⟩ : ∃ g, (build (coveredModel (.var (.text "mu"))) coveredData
      (Registry.builtin : Registry Dual)).collect.1 = .ok g ∧
        ∃ g', (build (coveredModel (.mul coveredEntry (.var (.text "w")))) coveredData
          (Registry.builtin : Registry Dual)).collect.1 = .ok g' ∧ g.warnings ≠ g'.warnings := by
    rw [build_of_constants hflatten (hconstants _), build_of_constants hflatten (hconstants _)]
    decide +kernel
  obtain ⟨u, hu, -⟩ := ofUnrolled_of_build hg
  have hdata : u.data = coveredBindings := by
    obtain ⟨-, hdata, -⟩ := Unrolled.make_eq_ok_iff.mp hu
    exact Except.ok.inj (hdata.symm.trans hflatten)
  have hid : ∀ id, u.RegistersAt (Registry.builtin : Registry Dual).foldingFunctions coveredPlace
      (coveredStatement (.var (.text "mu"))) id → u.data.values.contains id = true :=
    fun _ => registersAt_coveredPlace hdata _
  obtain ⟨htexts, -, hdensity⟩ := build_overridden hu hid hg hg'
  exact ⟨u, g, g', hu, hid, hg, hg', hdiffers, htexts, hdensity⟩

end Graph

end BayesGraph
