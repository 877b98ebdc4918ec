import Mathlib.Data.List.Forall2
import Mathlib.Data.List.Induction
import BayesGraph.Graph.Build
import BayesGraph.Proofs.Outcome
import BayesGraph.Proofs.Table
import BayesGraph.Proofs.Topology
import BayesGraph.Proofs.Unrolling

/-!
# What a built graph looks like

The graph of a model is built in steps that also emit messages. `build_result` says what it is
without them: the names are checked, the model is unrolled, the first definition of each identity
becomes a node, its references become numbers of nodes, and the nodes are put in order.

Out of this comes `WellFormed`, all that later theorems need to know of a graph: identities occur
once, the order lists every node once and after its parents, and the parents of a node are the
numbers of the identities to which its role refers.
-/

set_option autoImplicit false

namespace BayesGraph

open Outcome

namespace Role

/-- The resolved expressions of a role: parameters and bounds of the distribution, or the
expression of a logical node. -/
def parts : Role → List Expr
  | .observed _ none => []
  | .observed _ (some law) | .parameter law => law.parts
  | .logical e => [e]

end Role

namespace Graph

variable {α : Type}

/-! ## The result of a build -/

/-- The node of a definition, without parents and without the message about data that takes its
place. -/
def nodeOf (r : Registry α) (data : Bindings) (d : Definition) : Except Failure Node := do
  let (role, support) ← roleOf r data d
  d.checkCalls r
  return { id := d.target, role, support, statement := some d.source }

/-- The node of a definition is made with the result that is described here. -/
theorem yields_definitionNode (r : Registry α) (data : Bindings) (d : Definition) :
    Yields (definitionNode r data d) (nodeOf r data d) := by
  unfold definitionNode nodeOf
  refine yields_bind (yields_lift _) fun (role, support) => ?_
  have hcheck : Yields (do
      liftM (d.checkCalls r)
      pure { id := d.target, role, support, statement := some d.source }) (do
      d.checkCalls r
      return ({ id := d.target, role, support, statement := some d.source } : Node)) :=
    yields_bind (yields_lift _) fun _ => yields_pure _
  dsimp only
  split
  · exact yields_after (yields_emit _ _) hcheck
  · exact hcheck

/-- The graph of an unrolled model. -/
def ofUnrolled {β : Type} (u : Unrolled β) (r : Registry α) : Except Failure Graph := do
  let (definitions, duplicates) := firstDefinitions u.definitions
  let nodes ← definitions.mapM (nodeOf r u.data)
  let links ← definitions.foldlM (Links.add u.data) ⟨definitions.map (·.target), [], []⟩
  let linked := List.zipWith (fun (n : Node) ps => { n with parents := ps }) nodes links.parents
  let overridden := (definitions.filter (·.isOverridden u.data)).map overriddenMessage
  assemble (linked ++ links.leaves) (duplicates ++ overridden)

/-- The check of the names has the result of the verdict on them. -/
theorem yields_check (m : Model) (dataNames : List String) (reserved : String → Bool) :
    Yields (Names.check m dataNames reserved) (do
      let _ ← Names.verdict m dataNames reserved
      return ()) := by
  unfold Names.check
  refine yields_bind (yields_lift _) fun used => ?_
  dsimp only
  split
  · exact yields_pure ()
  · exact yields_emit _ _

/-- The result of a build: the names are checked, the model is unrolled, and the graph of the
unrolled model is assembled. -/
theorem build_result [Scalar α] (m : Model) (bindings : Table String Datum) (r : Registry α) :
    (build m bindings r).collect.1 = (do
      let _ ← Names.verdict m bindings.keys r.contains
      let u ← Unrolled.make m bindings r.foldingFunctions
      ofUnrolled u r) := by
  have hbuild : Yields (build m bindings r) (do
      let _ ← (do
        let _ ← Names.verdict m bindings.keys r.contains
        return ())
      let u ← Unrolled.make m bindings r.foldingFunctions
      ofUnrolled u r) := by
    unfold build ofUnrolled
    refine yields_bind (yields_check m bindings.keys r.contains) fun _ => ?_
    refine yields_bind (yields_lift _) fun u => ?_
    dsimp only
    refine yields_after (yields_forM_emit _ _) ?_
    refine yields_bind (yields_mapM (yields_definitionNode r u.data) _) fun nodes => ?_
    refine yields_bind (yields_lift _) fun links => ?_
    exact yields_before fun g => yields_after (yields_emit _ _) (yields_pure g)
  rw [hbuild.collect, bind_assoc]
  rfl

/-- The data and the constants of a model can be found ahead of a build. -/
theorem build_of_constants [Scalar α] {m : Model} {bindings : Table String Datum} {r : Registry α}
    {data : Bindings} {constants : Folding.Constants α}
    (hdata : Bindings.flatten bindings = .ok data)
    (hconstants : Folding.constants r.foldingFunctions m.statements data = .ok constants) :
    (build m bindings r).collect.1 = (do
      let _ ← Names.verdict m bindings.keys r.contains
      let u ← Unrolled.makeWith m data constants r.foldingFunctions
      ofUnrolled u r) := by
  rw [build_result, Unrolled.make_of_constants hdata hconstants]

/-! ## First definitions -/

/-- One more definition is left out if its target is defined already. -/
theorem firstDefinitions_append (ds : List Definition) (d : Definition) :
    (firstDefinitions (ds ++ [d])).1 =
      match (firstDefinitions ds).1.find? fun e => decide (e.target = d.target) with
      | some _ => (firstDefinitions ds).1
      | none => (firstDefinitions ds).1 ++ [d] := by
  unfold firstDefinitions
  rw [List.foldl_append, List.foldl_cons, List.foldl_nil]
  generalize List.foldl _ _ ds = state
  obtain ⟨firsts, messages⟩ := state
  dsimp only
  cases firsts.find? fun e => decide (e.target = d.target) <;> rfl

/-- The first definitions have different targets. -/
theorem nodup_firstDefinitions (ds : List Definition) :
    ((firstDefinitions ds).1.map (·.target)).Nodup := by
  induction ds using List.reverseRecOn with
  | nil => exact List.nodup_nil
  | append_singleton ds d ih =>
    rw [firstDefinitions_append]
    split
    · exact ih
    · next hnone =>
      rw [List.map_append, List.nodup_append]
      refine ⟨ih, List.nodup_singleton _, ?_⟩
      intro id hid id' hid'
      obtain ⟨e, he, rfl⟩ := List.mem_map.mp hid
      have hne := List.find?_eq_none.mp hnone e he
      rw [List.map_singleton, List.mem_singleton] at hid'
      subst hid'
      simpa using hne

/-- The first definition of an identity is the one that is found first. -/
theorem find?_firstDefinitions (ds : List Definition) (id : Identity) :
    (firstDefinitions ds).1.find? (fun e => decide (e.target = id)) =
      ds.find? fun e => decide (e.target = id) := by
  induction ds using List.reverseRecOn with
  | nil => rfl
  | append_singleton ds d ih =>
    rw [firstDefinitions_append, List.find?_append, ← ih]
    split
    · next e he =>
      by_cases hd : d.target = id
      · subst hd
        rw [he]
        rfl
      · simp [hd]
    · rw [List.find?_append]

/-- The first definitions are some of the definitions, in the same order. -/
theorem firstDefinitions_sublist (ds : List Definition) : (firstDefinitions ds).1.Sublist ds := by
  induction ds using List.reverseRecOn with
  | nil => exact List.Sublist.refl _
  | append_singleton ds d ih =>
    rw [firstDefinitions_append]
    split
    · exact ih.trans (List.sublist_append_left ds [d])
    · exact ih.append (List.Sublist.refl _)

/-- Every identity that is defined has a first definition. -/
theorem mem_targets_firstDefinitions {ds : List Definition} {id : Identity} :
    id ∈ (firstDefinitions ds).1.map (·.target) ↔ id ∈ ds.map (·.target) := by
  have hmem : ∀ es : List Definition, id ∈ es.map (·.target) ↔
      (es.find? fun e => decide (e.target = id)).isSome := by
    intro es
    rw [List.find?_isSome, List.mem_map]
    simp
  rw [hmem, hmem, find?_firstDefinitions]

/-- Among definitions with different targets, each is the one that is found for its target. -/
theorem find?_target {ds : List Definition} (h : (ds.map (·.target)).Nodup) {d : Definition}
    (hd : d ∈ ds) : ds.find? (fun e => decide (e.target = d.target)) = some d := by
  induction ds with
  | nil => simp at hd
  | cons e ds ih =>
    rw [List.map_cons, List.nodup_cons] at h
    rcases List.mem_cons.mp hd with rfl | hd
    · simp
    · have hne : e.target ≠ d.target := fun heq => h.1 (heq ▸ List.mem_map_of_mem hd)
      rw [List.find?_cons_of_neg (by simpa using hne)]
      exact ih h.2 hd

/-! ## Places of identities -/

/-- An identity has no place in a list exactly if it is not in it. -/
theorem placeOf_eq_none_iff {ids : List Identity} {ref : Identity} :
    placeOf ids ref = none ↔ ref ∉ ids := by
  unfold placeOf
  rw [List.findIdx?_eq_none_iff]
  constructor
  · intro h hmem
    simpa using h ref hmem
  · intro h id hid
    have hne : id ≠ ref := fun heq => h (heq ▸ hid)
    simpa using hne

/-- An identity has one place in a list without repetitions. -/
theorem placeOf_eq_some_iff {ids : List Identity} (h : ids.Nodup) {ref : Identity} {i : Nat} :
    placeOf ids ref = some i ↔ ids[i]? = some ref := by
  unfold placeOf
  rw [List.findIdx?_eq_some_iff_getElem]
  constructor
  · rintro ⟨hi, heq, -⟩
    rw [List.getElem?_eq_getElem hi]
    simpa using heq
  · intro hi
    obtain ⟨hlt, heq⟩ := List.getElem?_eq_some_iff.mp hi
    refine ⟨hlt, by simpa using heq, ?_⟩
    intro j hj hjeq
    have hsame : ids[j] = ids[i] := (of_decide_eq_true hjeq).trans heq.symm
    have hji : j = i := (List.Nodup.getElem_inj_iff h).mp hsame
    omega

/-- The place of an identity stays the same when others are appended. -/
theorem placeOf_append_of_some {ids more : List Identity} {ref : Identity} {i : Nat}
    (h : placeOf ids ref = some i) : placeOf (ids ++ more) ref = some i := by
  unfold placeOf at h ⊢
  rw [List.findIdx?_append, h]
  rfl

/-- A new identity comes last. -/
theorem placeOf_append_self {ids : List Identity} {ref : Identity} (h : ref ∉ ids) :
    placeOf (ids ++ [ref]) ref = some ids.length := by
  have hnone := placeOf_eq_none_iff.mpr h
  unfold placeOf at hnone ⊢
  rw [List.findIdx?_append, hnone]
  simp [List.findIdx?_cons]

/-! ## Links -/

/-- The leaf of an identity with a value in the data. -/
def leaf (id : Identity) (v : Number Double) : Node := { id, role := .observed v none }

/-- From `links` to `links'` the leaves `new` were added, because of some references. -/
structure Links.Grown (data : Bindings) (refs : List Identity) (links links' : Links)
    (new : List Node) : Prop where
  ids : links'.ids = links.ids ++ new.map (·.id)
  leaves : links'.leaves = links.leaves ++ new
  parents : links'.parents = links.parents
  from_data : ∀ n ∈ new, n.id ∈ refs ∧ ∃ v, data.values.get? n.id = some v ∧ n = leaf n.id v
  nodup : links.ids.Nodup → links'.ids.Nodup

/-- A reference that is resolved has a place afterwards, that of a leaf if it had none before. -/
theorem Links.resolve_eq_ok {data : Bindings} {d : Definition} {links links' : Links}
    {ref : Identity} {i : Nat} (h : links.resolve data d ref = .ok (links', i)) :
    placeOf links'.ids ref = some i ∧ ∃ new, Grown data [ref] links links' new := by
  unfold resolve at h
  split at h
  · next j hj =>
    cases h
    exact ⟨hj, [], by simp, by simp, rfl, by simp, id⟩
  · next hnone =>
    have hnew := placeOf_eq_none_iff.mp hnone
    split at h
    · next v hv =>
      cases h
      refine ⟨placeOf_append_self hnew, [leaf ref v], rfl, rfl, rfl, ?_, ?_⟩
      · intro n hn
        rw [List.mem_singleton.mp hn]
        exact ⟨List.mem_singleton.mpr rfl, v, hv, rfl⟩
      · intro hnodup
        exact List.nodup_append.mpr ⟨hnodup, List.nodup_singleton ref, by
          intro a ha b hb hab
          rw [List.mem_singleton.mp hb] at hab
          exact hnew (hab ▸ ha)⟩
    · cases h

/-- References that are resolved have their numbers as places afterwards. -/
theorem Links.resolveAll_eq_ok {data : Bindings} {d : Definition} {links links' : Links}
    {refs : List Identity} {is : List Nat}
    (h : links.resolveAll data d refs = .ok (links', is)) :
    refs.map (placeOf links'.ids) = is.map some ∧ ∃ new, Grown data refs links links' new := by
  induction refs generalizing links is with
  | nil =>
    cases h
    exact ⟨rfl, [], by simp, by simp, rfl, by simp, id⟩
  | cons ref refs ih =>
    simp only [resolveAll, bind_eq_ok, pure_eq_ok, Prod.exists, Prod.mk.injEq] at h
    obtain ⟨mid, i, hmid, last, js, hlast, rfl, rfl⟩ := h
    obtain ⟨hplace, new, hnew⟩ := resolve_eq_ok hmid
    obtain ⟨hplaces, more, hmore⟩ := ih hlast
    refine ⟨?_, new ++ more, ?_, ?_, ?_, ?_, fun hnodup => hmore.nodup (hnew.nodup hnodup)⟩
    · -- A place found for one reference stays its place, since resolving the others only appends.
      have hkept : placeOf last.ids ref = some i := by
        rw [hmore.ids]
        exact placeOf_append_of_some hplace
      rw [List.map_cons, List.map_cons, hkept, hplaces]
    · rw [hmore.ids, hnew.ids, List.map_append, List.append_assoc]
    · rw [hmore.leaves, hnew.leaves, List.append_assoc]
    · rw [hmore.parents, hnew.parents]
    · intro n hn
      rcases List.mem_append.mp hn with hn | hn
      · obtain ⟨href, hleaf⟩ := hnew.from_data n hn
        rw [List.mem_singleton] at href
        exact ⟨href ▸ List.mem_cons_self, hleaf⟩
      · obtain ⟨href, hleaf⟩ := hmore.from_data n hn
        exact ⟨List.mem_cons_of_mem ref href, hleaf⟩

/-- What holds of the links after the definitions `done`, if the identities `targets` are defined:
behind these come the leaves, each with its value in the data and needed by a definition, and the
parents of every definition are the places of its references. -/
structure Links.Sound (data : Bindings) (targets : List Identity) (done : List Definition)
    (links : Links) : Prop where
  ids : links.ids = targets ++ links.leaves.map (·.id)
  nodup : links.ids.Nodup
  from_data : ∀ n ∈ links.leaves, ∃ v, data.values.get? n.id = some v ∧ n = leaf n.id v
  needed : ∀ n ∈ links.leaves, ∃ d ∈ done, n.id ∈ d.usedRefs data
  parents : List.Forall₂
    (fun d is => (d.usedRefs data).map (placeOf links.ids) = is.map some) done links.parents

/-- One more definition keeps the links sound. -/
theorem Links.Sound.add {data : Bindings} {targets : List Identity} {done : List Definition}
    {links links' : Links} {d : Definition} (hs : links.Sound data targets done)
    (h : links.add data d = .ok links') : links'.Sound data targets (done ++ [d]) := by
  simp only [Links.add, bind_eq_ok, pure_eq_ok, Prod.exists] at h
  obtain ⟨mid, is, hmid, rfl⟩ := h
  obtain ⟨hplaces, new, hnew⟩ := resolveAll_eq_ok hmid
  refine ⟨?_, hnew.nodup hs.nodup, ?_, ?_, ?_⟩
  · simp only [hnew.ids, hnew.leaves, hs.ids, List.map_append, List.append_assoc]
  · intro n hn
    simp only [hnew.leaves, List.mem_append] at hn
    rcases hn with hn | hn
    · exact hs.from_data n hn
    · exact (hnew.from_data n hn).2
  · intro n hn
    simp only [hnew.leaves, List.mem_append] at hn
    rcases hn with hn | hn
    · obtain ⟨e, he, hmem⟩ := hs.needed n hn
      exact ⟨e, List.mem_append_left [d] he, hmem⟩
    · exact ⟨d, by simp, (hnew.from_data n hn).1⟩
  · -- places that were found before stay, because identities are only appended
    have hold : List.Forall₂
        (fun e is => (e.usedRefs data).map (placeOf mid.ids) = is.map some) done mid.parents := by
      rw [hnew.parents]
      refine hs.parents.imp ?_
      intro e js hjs
      rw [← hjs]
      refine List.map_congr_left fun ref href => ?_
      have hsome : placeOf links.ids ref ∈ js.map some := hjs ▸ List.mem_map_of_mem href
      obtain ⟨j, -, hj⟩ := List.mem_map.mp hsome
      rw [hnew.ids, ← hj]
      exact placeOf_append_of_some hj.symm
    exact List.rel_append hold (List.Forall₂.cons hplaces List.Forall₂.nil)

/-- The links of all definitions are sound. -/
theorem Links.sound_of_foldlM {data : Bindings} {targets : List Identity}
    {done ds : List Definition} {links links' : Links} (hs : links.Sound data targets done)
    (h : ds.foldlM (add data) links = .ok links') : links'.Sound data targets (done ++ ds) := by
  induction ds generalizing links done with
  | nil =>
    cases h
    simpa using hs
  | cons d ds ih =>
    rw [List.foldlM_cons, bind_eq_ok] at h
    obtain ⟨mid, hmid, h⟩ := h
    simpa using ih (hs.add hmid) h

/-- If nothing is linked yet and the targets are different, the links are sound. -/
theorem Links.sound_start {data : Bindings} {targets : List Identity} (h : targets.Nodup) :
    (Links.mk targets [] []).Sound data targets [] :=
  ⟨by simp, h, by simp, by simp, List.Forall₂.nil⟩

/-! ## Well-formed graphs -/

/-- The number of an identity is its place among the identities of the nodes. -/
theorem index?_eq_placeOf (g : Graph) (id : Identity) :
    g.index? id = placeOf (g.nodes.map (·.id)) id := by
  unfold index? placeOf
  rw [List.findIdx?_map]
  rfl

/-- What every built graph satisfies. -/
structure WellFormed (g : Graph) : Prop where
  nodup : (g.nodes.map (·.id)).Nodup
  order : g.parentLists.IsOrder g.order
  parameters : g.parameters = g.order.filter fun i => (g.nodes[i]?).any (·.role.isParameter)
  /-- The parents of a node are the numbers of the identities that its role refers to. -/
  linked : ∀ n ∈ g.nodes, ∃ refs, Expr.refsOfAll n.role.parts = .ok refs ∧
    (distinct refs).map g.index? = n.parents.map some

/-- The parents of a node are those that its record lists. -/
theorem parents_of_getElem? {g : Graph} {i : Nat} {n : Node} (hn : g.nodes[i]? = some n) :
    g.parentLists.parents i = n.parents := by
  unfold parentLists ParentLists.parents
  simp [hn]

/-- A well-formed graph numbers the identity of node `i` by `i`. -/
theorem WellFormed.index?_of_getElem? {g : Graph} (hg : g.WellFormed) {i : Nat} {n : Node}
    (hn : g.nodes[i]? = some n) : g.index? n.id = some i := by
  rw [index?_eq_placeOf, placeOf_eq_some_iff hg.nodup, List.getElem?_map, hn]
  rfl

/-- The number of an identity is that of a node with this identity. -/
theorem WellFormed.getElem?_of_index? {g : Graph} (hg : g.WellFormed) {i : Nat} {id : Identity}
    (h : g.index? id = some i) : ∃ n, g.nodes[i]? = some n ∧ n.id = id := by
  rw [index?_eq_placeOf, placeOf_eq_some_iff hg.nodup, List.getElem?_map,
    Option.map_eq_some_iff] at h
  exact h

/-- The order of a well-formed graph contains the numbers of all nodes. -/
theorem WellFormed.mem_order {g : Graph} (hg : g.WellFormed) {i : Nat} {n : Node}
    (hn : g.nodes[i]? = some n) : i ∈ g.order := by
  have hlt : i < g.parentLists.length := by
    unfold parentLists
    rw [List.length_map]
    exact (List.getElem?_eq_some_iff.mp hn).1
  exact hg.order.mem_iff.mpr hlt

/-- The parameters of a well-formed graph are the nodes that are to be sampled. -/
theorem WellFormed.mem_parameters_iff {g : Graph} (hg : g.WellFormed) {i : Nat} {n : Node}
    (hn : g.nodes[i]? = some n) : i ∈ g.parameters ↔ n.role.isParameter = true := by
  rw [hg.parameters, List.mem_filter, hn, Option.any_some]
  exact and_iff_right (hg.mem_order hn)

/-- The order of a well-formed graph contains no other numbers. -/
theorem WellFormed.lt_size {g : Graph} (hg : g.WellFormed) : ∀ i ∈ g.order, i < g.size := by
  intro i hi
  have hlen : g.parentLists.length = g.size := List.length_map _
  rw [← hlen]
  exact hg.order.mem_iff.mp hi

/-- Every reference of a node is the identity of one of its parents. -/
theorem WellFormed.parent_of_ref {g : Graph} (hg : g.WellFormed) {n : Node} (hn : n ∈ g.nodes)
    {refs : List Identity} (hrefs : Expr.refsOfAll n.role.parts = .ok refs) {id : Identity}
    (hid : id ∈ refs) : ∃ j p, j ∈ n.parents ∧ g.nodes[j]? = some p ∧ p.id = id := by
  obtain ⟨refs', hrefs', hlinked⟩ := hg.linked n hn
  rw [hrefs, Except.ok.injEq] at hrefs'
  have hindex : g.index? id ∈ n.parents.map some := by
    rw [← hlinked, ← hrefs']
    exact List.mem_map_of_mem (mem_distinct.mpr hid)
  obtain ⟨j, hj, hjid⟩ := List.mem_map.mp hindex
  obtain ⟨p, hp, hpid⟩ := hg.getElem?_of_index? hjid.symm
  exact ⟨j, p, hj, hp, hpid⟩

/-- Every reference of a node is the identity of a node. -/
theorem WellFormed.node_of_ref {g : Graph} (hg : g.WellFormed) {n : Node} (hn : n ∈ g.nodes)
    {refs : List Identity} (hrefs : Expr.refsOfAll n.role.parts = .ok refs) {id : Identity}
    (hid : id ∈ refs) : ∃ p ∈ g.nodes, p.id = id := by
  obtain ⟨j, p, -, hp, hpid⟩ := hg.parent_of_ref hn hrefs hid
  exact ⟨p, List.mem_of_getElem? hp, hpid⟩

/-- Along the order of a graph, a property of nodes passes from the parents of a node on to it. -/
theorem WellFormed.order_induction {g : Graph} (hg : g.WellFormed) {P : Node → Prop}
    (hstep : ∀ n ∈ g.nodes, ∀ refs, Expr.refsOfAll n.role.parts = .ok refs →
      (∀ p ∈ g.nodes, p.id ∈ refs → P p) → P n) {placed order : List Nat}
    (hfirst : g.parentLists.ParentsFirst placed order)
    (hplaced : ∀ i ∈ placed, ∀ n, g.nodes[i]? = some n → P n) :
    ∀ i ∈ order, ∀ n, g.nodes[i]? = some n → P n := by
  -- The induction is along the order, where the parents of a node are among those placed before.
  induction order generalizing placed with
  | nil => simp
  | cons i rest ih =>
    obtain ⟨hparents, hrest⟩ := hfirst
    have hi : ∀ n, g.nodes[i]? = some n → P n := by
      intro n hn
      have hmem := List.mem_of_getElem? hn
      obtain ⟨refs, hrefs, -⟩ := hg.linked n hmem
      refine hstep n hmem refs hrefs fun p hp hpid => ?_
      obtain ⟨j, q, hj, hq, hqid⟩ := hg.parent_of_ref hmem hrefs hpid
      obtain ⟨k, hk⟩ := List.getElem?_of_mem hp
      have hjk : some j = some k := by
        rw [← hg.index?_of_getElem? hq, ← hg.index?_of_getElem? hk, hqid]
      cases hjk
      rw [← parents_of_getElem? hn] at hj
      exact hplaced j (hparents j hj) p hk
    intro j hj
    rcases List.mem_cons.mp hj with rfl | hj
    · exact hi
    · refine ih hrest (fun k hk => ?_) j hj
      rcases List.mem_append.mp hk with hk | hk
      · exact hplaced k hk
      · rw [List.mem_singleton.mp hk]
        exact hi

/-- A property of nodes holds if it passes from the nodes that a node refers to on to the node. -/
theorem WellFormed.node_induction {g : Graph} (hg : g.WellFormed) {P : Node → Prop}
    (hstep : ∀ n ∈ g.nodes, ∀ refs, Expr.refsOfAll n.role.parts = .ok refs →
      (∀ p ∈ g.nodes, p.id ∈ refs → P p) → P n) : ∀ n ∈ g.nodes, P n := by
  intro n hn
  obtain ⟨i, hi⟩ := List.getElem?_of_mem hn
  exact hg.order_induction hstep hg.order.parents_first (by simp) i (hg.mem_order hi) n hi

/-- The role that a definition has beside the data, whatever the family of its distribution. -/
def roleIn (data : Bindings) (d : Definition) : Role :=
  match d.meaning, data.values.get? d.target with
  | .dist law, some v => .observed v (some law)
  | .dist law, none => .parameter law
  | .expr _, some v => .observed v none
  | .expr e, none => .logical e

/-- A role is accepted as it is. -/
theorem roleOf_eq_ok {r : Registry α} {data : Bindings} {d : Definition} {role : Role}
    {support : Option SupportKind} (h : roleOf r data d = .ok (role, support)) :
    role = roleIn data d := by
  unfold roleOf at h
  unfold roleIn
  split at h
  · next law hmeaning =>
    rw [hmeaning]
    split at h
    · cases h
    · simp only [bind_eq_ok] at h
      obtain ⟨-, -, h⟩ := h
      split at h
      · next v hvalue =>
        rw [hvalue]
        cases h
        rfl
      · next hvalue =>
        rw [hvalue]
        cases h
        rfl
  · next e v hmeaning hvalue =>
    rw [hmeaning, hvalue]
    cases h
    rfl
  · next e hmeaning hvalue =>
    rw [hmeaning, hvalue]
    cases h
    rfl

/-- The identities that become parents are those that the role refers to. -/
theorem refsOfAll_roleIn {data : Bindings} {d : Definition} (h : d.meaning.refs = .ok d.refs) :
    ∃ refs, Expr.refsOfAll (roleIn data d).parts = .ok refs ∧ distinct refs = d.usedRefs data := by
  unfold Meaning.refs at h
  unfold roleIn Definition.usedRefs Definition.isOverridden
  cases hmeaning : d.meaning with
  | dist law =>
    rw [hmeaning] at h
    cases hv : data.values.get? d.target <;>
      exact ⟨d.refs, h, by simp [Meaning.isStochastic]⟩
  | expr e =>
    rw [hmeaning] at h
    cases hv : data.values.get? d.target with
    | none => exact ⟨d.refs, h, by simp [Table.contains, hv]⟩
    | some v => exact ⟨[], rfl, by simp [Table.contains, hv, Meaning.isStochastic, distinct]⟩

/-- The node of a definition has its target, its role and its text. -/
theorem nodeOf_eq_ok {r : Registry α} {data : Bindings} {d : Definition} {n : Node}
    (h : nodeOf r data d = .ok n) :
    n.id = d.target ∧ n.role = roleIn data d ∧ n.statement = some d.source := by
  simp only [nodeOf, bind_eq_ok, pure_eq_ok, Prod.exists] at h
  obtain ⟨role, support, hrole, -, -, rfl⟩ := h
  exact ⟨rfl, roleOf_eq_ok hrole, rfl⟩

/-- The graph of an unrolled model. -/
theorem ofUnrolled_eq_ok {β : Type} {u : Unrolled β} {r : Registry α} {g : Graph}
    (h : ofUnrolled u r = .ok g) :
    ∃ nodes links, (firstDefinitions u.definitions).1.mapM (nodeOf r u.data) = .ok nodes ∧
      Links.Sound u.data ((firstDefinitions u.definitions).1.map (·.target))
        (firstDefinitions u.definitions).1 links ∧
      g.nodes = List.zipWith (fun (n : Node) ps => { n with parents := ps }) nodes links.parents
        ++ links.leaves ∧
      g.parentLists.order? = some g.order ∧
      g.parameters = g.order.filter fun i => (g.nodes[i]?).any (·.role.isParameter) := by
  simp only [ofUnrolled, bind_eq_ok] at h
  obtain ⟨nodes, hnodes, links, hlinks, hg⟩ := h
  have hsound := Links.sound_of_foldlM
    (Links.sound_start (nodup_firstDefinitions u.definitions)) hlinks
  rw [List.nil_append] at hsound
  unfold assemble at hg
  dsimp only at hg
  split at hg
  · cases hg
  · next order horder =>
    cases hg
    exact ⟨nodes, links, hnodes, hsound, rfl, horder, rfl⟩

/-- The identities of a built graph are the targets, and behind them the leaves. -/
theorem map_id_zipWith {data : Bindings} {r : Registry α} {ds : List Definition}
    {nodes : List Node} {parents : List (List Nat)}
    (hnodes : List.Forall₂ (fun d n => nodeOf r data d = .ok n) ds nodes)
    (hlen : parents.length = ds.length) :
    (List.zipWith (fun (n : Node) ps => { n with parents := ps }) nodes parents).map (·.id) =
      ds.map (·.target) := by
  induction hnodes generalizing parents with
  | nil => rfl
  | cons hn hrest ih =>
    cases parents with
    | nil => simp at hlen
    | cons ps parents =>
      have htail := ih (by simpa using hlen)
      rw [List.zipWith_cons_cons, List.map_cons, List.map_cons, htail, (nodeOf_eq_ok hn).1]

/-- A linked node is the node of its definition, and its parents are the places of references. -/
theorem forall₂_linked {data : Bindings} {r : Registry α} {ids : List Identity}
    {ds : List Definition} {bare : List Node} {parents : List (List Nat)}
    (hbare : List.Forall₂ (fun d n => nodeOf r data d = .ok n) ds bare)
    (hparents : List.Forall₂
      (fun d is => (d.usedRefs data).map (placeOf ids) = is.map some) ds parents) :
    List.Forall₂ (fun d n => ∃ n₀ is, nodeOf r data d = .ok n₀ ∧
        (d.usedRefs data).map (placeOf ids) = is.map some ∧ n = { n₀ with parents := is }) ds
      (List.zipWith (fun (n : Node) ps => { n with parents := ps }) bare parents) := by
  induction hbare generalizing parents with
  | nil =>
    cases hparents
    exact .nil
  | cons hn _ ih =>
    cases hparents with
    | cons his hrest => exact .cons ⟨_, _, hn, his, rfl⟩ (ih hrest)

/-- Each linked node comes from a definition and from the places of its references. -/
theorem mem_zipWith_linked {data : Bindings} {r : Registry α} {ids : List Identity}
    {ds : List Definition} {nodes : List Node} {parents : List (List Nat)}
    (hnodes : List.Forall₂ (fun d n => nodeOf r data d = .ok n) ds nodes)
    (hparents : List.Forall₂
      (fun d is => (d.usedRefs data).map (placeOf ids) = is.map some) ds parents) {n : Node}
    (hn : n ∈ List.zipWith (fun (n : Node) ps => { n with parents := ps }) nodes parents) :
    ∃ d ∈ ds, n.id = d.target ∧ n.role = roleIn data d ∧ n.statement = some d.source ∧
      (d.usedRefs data).map (placeOf ids) = n.parents.map some := by
  obtain ⟨d, hd, n₀, is, hn₀, his, rfl⟩ :=
    exists_of_forall₂ (forall₂_linked hnodes hparents).flip hn
  obtain ⟨hid, hrole, hstatement⟩ := nodeOf_eq_ok hn₀
  exact ⟨d, hd, hid, hrole, hstatement, his⟩

/-- The graph of an unrolled model is well-formed, if the definitions know their references. -/
theorem wellFormed_ofUnrolled {β : Type} {u : Unrolled β} {r : Registry α} {g : Graph}
    (hu : ∀ d ∈ u.definitions, d.meaning.refs = .ok d.refs) (h : ofUnrolled u r = .ok g) :
    g.WellFormed := by
  obtain ⟨nodes, links, hnodes, hlinks, hg, horder, hparameters⟩ := ofUnrolled_eq_ok h
  rw [mapM_eq_ok] at hnodes
  have hlen := hlinks.parents.length_eq
  have hids : g.nodes.map (·.id) = links.ids := by
    rw [hg, List.map_append, map_id_zipWith hnodes hlen.symm, hlinks.ids]
  refine ⟨hids ▸ hlinks.nodup, ParentLists.isOrder_of_order? horder, hparameters, ?_⟩
  intro n hn
  have hindex : g.index? = placeOf links.ids := by
    funext id
    rw [index?_eq_placeOf, hids]
  rw [hindex]
  rw [hg, List.mem_append] at hn
  rcases hn with hn | hn
  · obtain ⟨d, hd, -, hrole, -, hplaces⟩ := mem_zipWith_linked hnodes hlinks.parents hn
    have hmem := (firstDefinitions_sublist u.definitions).subset hd
    obtain ⟨refs, hrefs, hused⟩ := @refsOfAll_roleIn u.data d (hu d hmem)
    exact ⟨refs, hrole ▸ hrefs, hused ▸ hplaces⟩
  · obtain ⟨v, -, hleaf⟩ := hlinks.from_data n hn
    rw [hleaf]
    exact ⟨[], rfl, rfl⟩

/-- The first definition of an identity, if it has any, and otherwise its value in the data, decides
on the role of its node. -/
theorem definition_of_node {β : Type} {u : Unrolled β} {r : Registry α} {g : Graph}
    (h : ofUnrolled u r = .ok g) {n : Node} (hn : n ∈ g.nodes) :
    (∃ d, u.definitions.find? (fun e => decide (e.target = n.id)) = some d ∧
      n.role = roleIn u.data d) ∨
    ∃ v, u.data.values.get? n.id = some v ∧ n.role = .observed v none := by
  obtain ⟨nodes, links, hnodes, hlinks, hg, -, -⟩ := ofUnrolled_eq_ok h
  rw [hg, List.mem_append] at hn
  rcases hn with hn | hn
  · obtain ⟨d, hd, hid, hrole, -⟩ := mem_zipWith_linked (mapM_eq_ok.mp hnodes) hlinks.parents hn
    refine Or.inl ⟨d, ?_, hrole⟩
    rw [hid, ← find?_firstDefinitions]
    exact find?_target (nodup_firstDefinitions _) hd
  · obtain ⟨v, hv, hleaf⟩ := hlinks.from_data n hn
    exact Or.inr ⟨v, hv, by rw [hleaf]; rfl⟩

/-- A node with a value in the data is observed. -/
theorem role_of_data {β : Type} {u : Unrolled β} {r : Registry α} {g : Graph}
    (h : ofUnrolled u r = .ok g) {n : Node} (hn : n ∈ g.nodes) {v : Number Double}
    (hv : u.data.values.get? n.id = some v) : ∃ dist, n.role = .observed v dist := by
  rcases definition_of_node h hn with ⟨d, hd, hrole⟩ | ⟨w, hw, hrole⟩
  · have htarget : d.target = n.id := by simpa using List.find?_some hd
    unfold roleIn at hrole
    rw [htarget, hv] at hrole
    cases hmeaning : d.meaning with
    | dist law => exact ⟨some law, by rw [hrole, hmeaning]⟩
    | expr e => exact ⟨none, by rw [hrole, hmeaning]⟩
  · rw [hv, Option.some.injEq] at hw
    exact ⟨none, hw ▸ hrole⟩

/-- A node without a value in the data has the role that its first definition asks for. -/
theorem role_of_first {β : Type} {u : Unrolled β} {r : Registry α} {g : Graph}
    (h : ofUnrolled u r = .ok g) {n : Node} (hn : n ∈ g.nodes)
    (hv : u.data.values.get? n.id = none) {d : Definition}
    (hd : u.definitions.find? (fun e => decide (e.target = n.id)) = some d) :
    n.role = match d.meaning with
      | .dist law => .parameter law
      | .expr e => .logical e := by
  rcases definition_of_node h hn with ⟨d', hd', hrole⟩ | ⟨w, hw, -⟩
  · rw [hd, Option.some.injEq] at hd'
    subst hd'
    have htarget : d.target = n.id := by simpa using List.find?_some hd
    unfold roleIn at hrole
    rw [htarget, hv] at hrole
    rw [hrole]
    cases d.meaning <;> rfl
  · rw [hv] at hw
    cases hw

/-- Every identity that is defined has a node. -/
theorem node_of_definition {β : Type} {u : Unrolled β} {r : Registry α} {g : Graph}
    (h : ofUnrolled u r = .ok g) {d : Definition} (hd : d ∈ u.definitions) :
    ∃ n ∈ g.nodes, n.id = d.target := by
  obtain ⟨nodes, links, hnodes, hlinks, hg, -, -⟩ := ofUnrolled_eq_ok h
  have hfirst := mem_targets_firstDefinitions.mpr (List.mem_map_of_mem hd)
  rw [← map_id_zipWith (mapM_eq_ok.mp hnodes) hlinks.parents.length_eq.symm] at hfirst
  obtain ⟨n, hn, hid⟩ := List.mem_map.mp hfirst
  exact ⟨n, by rw [hg]; exact List.mem_append_left _ hn, hid⟩

/-- The graph that a build returns is that of the unrolled model. -/
theorem ofUnrolled_of_build [Scalar α] {m : Model} {bindings : Table String Datum}
    {r : Registry α} {g : Graph} (h : (build m bindings r).collect.1 = .ok g) :
    ∃ u, Unrolled.make m bindings r.foldingFunctions = .ok u ∧ ofUnrolled u r = .ok g := by
  rw [build_result] at h
  simp only [bind_eq_ok] at h
  obtain ⟨-, -, u, hu, hg⟩ := h
  exact ⟨u, hu, hg⟩

/-- Every graph that a build returns is well-formed. -/
theorem wellFormed_of_build [Scalar α] {m : Model} {bindings : Table String Datum}
    {r : Registry α} {g : Graph} (h : (build m bindings r).collect.1 = .ok g) : g.WellFormed := by
  obtain ⟨u, hu, hg⟩ := ofUnrolled_of_build h
  exact wellFormed_ofUnrolled (fun d hd => Unrolled.refs_of_make hu hd) hg

end Graph

end BayesGraph
