import BayesGraph.Proofs.DataExtension

/-!
# Observing parameters

More data can give values to parameters. The graph that is built with it has the same nodes in the
same order, with the same parents; only the parameters with a value are observed, and the vector of
coordinates has no entries for them (`Graph.Observes`).
-/

set_option autoImplicit false

namespace BayesGraph

open Outcome

namespace Node

/-- The node with its value in the data, if it is a parameter that has one. -/
def observe (data : Bindings) (n : Node) : Node :=
  match n.role, data.values.get? n.id with
  | .parameter law, some v => { n with role := .observed v (some law), support := none }
  | _, _ => n

variable {data : Bindings} {n : Node} {law : Dist} {v : Number Double}

/-- A parameter in the data becomes an observed node with the same distribution. -/
theorem observe_of_parameter (hrole : n.role = .parameter law)
    (hv : data.values.get? n.id = some v) :
    n.observe data = { n with role := .observed v (some law), support := none } := by
  unfold observe
  rw [hrole, hv]

/-- A node that is not in the data stays as it is. -/
theorem observe_of_none (hv : data.values.get? n.id = none) : n.observe data = n := by
  unfold observe
  rw [hv]
  cases n.role <;> rfl

/-- A node that is no parameter stays as it is. -/
theorem observe_of_not_parameter (hrole : n.role.isParameter = false) : n.observe data = n := by
  unfold observe
  cases h : n.role with
  | parameter law =>
    rw [h] at hrole
    cases hrole
  | observed _ _ | logical _ => rfl

/-- A node is observed in one of two ways: it has a value, or it stays as it is. -/
theorem observe_cases (data : Bindings) (n : Node) :
    (∃ law v, n.role = .parameter law ∧ data.values.get? n.id = some v ∧
      n.observe data = { n with role := .observed v (some law), support := none }) ∨
    (n.role.isParameter = true → data.values.get? n.id = none) ∧ n.observe data = n := by
  cases hrole : n.role with
  | parameter law =>
    cases hv : data.values.get? n.id with
    | some v => exact Or.inl ⟨law, v, rfl, rfl, observe_of_parameter hrole hv⟩
    | none => exact Or.inr ⟨fun _ => rfl, observe_of_none hv⟩
  | observed value dist =>
    exact Or.inr ⟨nofun, observe_of_not_parameter (by rw [hrole]; rfl)⟩
  | logical e => exact Or.inr ⟨nofun, observe_of_not_parameter (by rw [hrole]; rfl)⟩

/-- Observing a node does not change its identity. -/
@[simp] theorem observe_id (data : Bindings) (n : Node) : (n.observe data).id = n.id := by
  rcases observe_cases data n with ⟨_, _, -, -, h⟩ | ⟨-, h⟩ <;> rw [h]

/-- Observing a node does not change its parents. -/
@[simp] theorem observe_parents (data : Bindings) (n : Node) :
    (n.observe data).parents = n.parents := by
  rcases observe_cases data n with ⟨_, _, -, -, h⟩ | ⟨-, h⟩ <;> rw [h]

/-- It makes no difference when the parents are linked. -/
theorem observe_linked (data : Bindings) (n : Node) (parents : List Nat) :
    { n.observe data with parents := parents } =
      Node.observe data { n with parents := parents } := by
  rcases observe_cases data n with ⟨law, v, hrole, hv, h⟩ | ⟨hnone, h⟩
  · have hlinked : Node.observe data { n with parents := parents } =
        { n with role := .observed v (some law), parents := parents, support := none } :=
      observe_of_parameter hrole hv
    rw [h, hlinked]
  · have hlinked : Node.observe data { n with parents := parents } =
        { n with parents := parents } := by
      cases hparameter : n.role.isParameter with
      | true => exact observe_of_none (hnone hparameter)
      | false => exact observe_of_not_parameter hparameter
    rw [h, hlinked]

end Node

namespace Graph

variable {α : Type} {r : Registry α} {data data' : Bindings} {ids : List Identity}

/-! ## Nodes and links beside more data -/

/-- A definition whose target has the same value in both data has the same node; that of a
stochastic definition without a value in the first data is observed. -/
theorem nodeOf_observe {d : Definition} {n n' : Node} (hn : nodeOf r data d = .ok n)
    (hn' : nodeOf r data' d = .ok n')
    (h : data'.values.get? d.target = data.values.get? d.target ∨
      d.meaning.isStochastic = true ∧ data.values.get? d.target = none) :
    n' = n.observe data' := by
  have hsame (heq : data'.values.get? d.target = data.values.get? d.target) :
      n' = n.observe data' := by
    obtain ⟨hid, hrole, -⟩ := nodeOf_eq_ok hn
    have hroleOf : roleOf r data' d = roleOf r data d := by
      unfold roleOf
      rw [heq]
    unfold nodeOf at hn hn'
    rw [hroleOf, hn, Except.ok.injEq] at hn'
    subst hn'
    rcases Node.observe_cases data' n with ⟨law, v, hparameter, hv, -⟩ | ⟨-, hobserve⟩
    · -- a parameter has no value in the data
      rw [hid, heq] at hv
      rw [hrole] at hparameter
      unfold roleIn at hparameter
      rw [hv] at hparameter
      split at hparameter <;> simp_all
    · exact hobserve.symm
  rcases h with heq | ⟨hstochastic, hnone⟩
  · exact hsame heq
  · cases hv : data'.values.get? d.target with
    | none => exact hsame (hv.trans hnone.symm)
    | some v =>
      obtain ⟨law, hmeaning⟩ : ∃ law, d.meaning = .dist law := by
        cases hmeaning : d.meaning with
        | dist law => exact ⟨law, rfl⟩
        | expr e =>
          rw [hmeaning] at hstochastic
          cases hstochastic
      obtain ⟨hid, hrole, hstatement⟩ := nodeOf_eq_ok hn
      unfold roleIn at hrole
      rw [hmeaning, hnone] at hrole
      rw [Node.observe_of_parameter hrole (hid ▸ hv)]
      simp only [nodeOf, roleOf, hmeaning, hv, hnone, bind_eq_ok, pure_eq_ok, Prod.exists] at hn hn'
      obtain ⟨role, support, -, -, -, rfl⟩ := hn
      obtain ⟨role', support', hroleOf', -, -, rfl⟩ := hn'
      split at hroleOf'
      · cases hroleOf'
      · simp only [bind_eq_ok, pure_eq_ok, Prod.mk.injEq] at hroleOf'
        obtain ⟨-, -, rfl, rfl⟩ := hroleOf'
        rfl

/-- So do lists of definitions. -/
theorem map_observe_of_nodeOf {ds : List Definition} {nodes nodes' : List Node}
    (hnodes : List.Forall₂ (fun d n => nodeOf r data d = .ok n) ds nodes)
    (hnodes' : List.Forall₂ (fun d n => nodeOf r data' d = .ok n) ds nodes')
    (h : ∀ d ∈ ds, data'.values.get? d.target = data.values.get? d.target ∨
      d.meaning.isStochastic = true ∧ data.values.get? d.target = none) :
    nodes' = nodes.map (Node.observe data') := by
  induction hnodes generalizing nodes' with
  | nil =>
    cases hnodes'
    rfl
  | cons hn _ ih =>
    cases hnodes' with
    | cons hn' hnodes' =>
      rw [List.map_cons, ← ih hnodes' fun d hd => h d (List.mem_cons_of_mem _ hd),
        nodeOf_observe hn hn' (h _ List.mem_cons_self)]

/-- A reference is resolved alike beside more data, if the new identities have their places. -/
theorem Links.resolve_grows (h : data.Grows data' ids) {d : Definition} {links links' : Links}
    {ref : Identity} {i : Nat} (hids : ∀ id ∈ ids, id ∈ links.ids)
    (hresolve : links.resolve data d ref = .ok (links', i)) :
    links.resolve data' d ref = .ok (links', i) := by
  unfold resolve at hresolve ⊢
  cases hplace : placeOf links.ids ref with
  | some j =>
    rw [hplace] at hresolve
    exact hresolve
  | none =>
    have hother : data'.values.get? ref = data.values.get? ref :=
      h.others ref fun hid => placeOf_eq_none_iff.mp hplace (hids ref hid)
    simp only [hplace, hother] at hresolve ⊢
    cases hv : data.values.get? ref with
    | some v =>
      rw [hv] at hresolve
      exact hresolve
    | none =>
      rw [hv] at hresolve
      cases hresolve

/-- References are resolved alike with more data, if the links have their identities. -/
theorem Links.resolveAll_grows (h : data.Grows data' ids) {d : Definition} {links links' : Links}
    {refs : List Identity} {is : List Nat} (hids : ∀ id ∈ ids, id ∈ links.ids)
    (hresolve : links.resolveAll data d refs = .ok (links', is)) :
    links.resolveAll data' d refs = .ok (links', is) := by
  induction refs generalizing links links' is with
  | nil => exact hresolve
  | cons ref refs ih =>
    simp only [resolveAll, bind_eq_ok, pure_eq_ok, Prod.exists] at hresolve ⊢
    obtain ⟨mid, i, hmid, last, js, hlast, heq⟩ := hresolve
    obtain ⟨-, new, hnew⟩ := resolve_eq_ok hmid
    refine ⟨mid, i, resolve_grows h hids hmid, last, js, ih (fun id hid => ?_) hlast, heq⟩
    rw [hnew.ids]
    exact List.mem_append_left _ (hids id hid)

/-- Definitions are linked alike beside more data, if the new identities belong to stochastic
definitions and have their places. -/
theorem Links.foldlM_grows (h : data.Grows data' ids) {ds : List Definition} {links links' : Links}
    (hids : ∀ id ∈ ids, id ∈ links.ids)
    (hds : ∀ d ∈ ds, d.target ∈ ids → d.meaning.isStochastic = true)
    (hadd : ds.foldlM (add data) links = .ok links') :
    ds.foldlM (add data') links = .ok links' := by
  induction ds generalizing links with
  | nil => exact hadd
  | cons d ds ih =>
    rw [List.foldlM_cons, bind_eq_ok] at hadd ⊢
    obtain ⟨mid, hmid, hrest⟩ := hadd
    have hused : d.usedRefs data' = d.usedRefs data := by
      unfold Definition.usedRefs Definition.isOverridden
      by_cases hd : d.target ∈ ids
      · rw [hds d List.mem_cons_self hd]
        rfl
      · unfold Table.contains
        rw [h.others d.target hd]
    simp only [add, bind_eq_ok, pure_eq_ok, Prod.exists] at hmid
    obtain ⟨last, is, hlast, rfl⟩ := hmid
    refine ⟨_, ?_, ih (fun id hid => ?_) (fun e he => hds e (List.mem_cons_of_mem d he)) hrest⟩
    · simp only [add, bind_eq_ok, pure_eq_ok, Prod.exists, hused]
      exact ⟨last, is, resolveAll_grows h hids hlast, rfl⟩
    · obtain ⟨-, new, hnew⟩ := resolveAll_eq_ok hlast
      change id ∈ last.ids
      rw [hnew.ids]
      exact List.mem_append_left _ (hids id hid)

/-! ## Graphs beside more data -/

/-- The second graph is the first one, with the values in the data for its parameters. -/
structure Observes (data : Bindings) (g g' : Graph) : Prop where
  nodes : g'.nodes = g.nodes.map (Node.observe data)
  order : g'.order = g.order

/-- Nodes can be observed before or after they get their parents. -/
theorem zipWith_observe (data : Bindings) (nodes : List Node) (parents : List (List Nat)) :
    List.zipWith (fun (n : Node) ps => { n with parents := ps })
        (nodes.map (Node.observe data)) parents =
      (List.zipWith (fun (n : Node) ps => { n with parents := ps }) nodes parents).map
        (Node.observe data) := by
  rw [List.zipWith_map_left, List.map_zipWith]
  exact congrArg (List.zipWith · nodes parents)
    (funext fun n => funext fun ps => Node.observe_linked data n ps)

/-- The graphs of two unrolled models with the same definitions, the second one beside more data. -/
theorem observes_ofUnrolled {β : Type} {u u' : Unrolled β} {g g' : Graph}
    (hg : ofUnrolled u r = .ok g) (hg' : ofUnrolled u' r = .ok g')
    (hgrows : u.data.Grows u'.data ids) (hsame : u'.definitions = u.definitions)
    (honce : (u.definitions.map (·.target)).Nodup)
    (hids : ∀ id ∈ ids, ∃ d ∈ u.definitions, d.target = id ∧ d.meaning.isStochastic = true)
    (hmissing : ∀ id ∈ ids, u.data.values.get? id = none) : Observes u'.data g g' := by
  simp only [ofUnrolled, bind_eq_ok, hsame] at hg hg'
  obtain ⟨nodes, hnodes, links, hlinks, hg⟩ := hg
  obtain ⟨nodes', hnodes', links', hlinks', hg'⟩ := hg'
  have hstochastic : ∀ d ∈ (firstDefinitions u.definitions).1, d.target ∈ ids →
      d.meaning.isStochastic = true := by
    intro d hd hid
    obtain ⟨d', hd', htarget, hstochastic⟩ := hids d.target hid
    have hd := (firstDefinitions_sublist u.definitions).subset hd
    exact List.inj_on_of_nodup_map honce hd' hd htarget ▸ hstochastic
  -- The links do not depend on the new data, since none of its identities is linked as a leaf.
  obtain rfl : links' = links := by
    have hgrown := Links.foldlM_grows hgrows (fun id hid => ?_) hstochastic hlinks
    · rw [hlinks', Except.ok.injEq] at hgrown
      exact hgrown
    · obtain ⟨d, hd, rfl, -⟩ := hids id hid
      exact mem_targets_firstDefinitions.mpr (List.mem_map_of_mem hd)
  obtain rfl : nodes' = nodes.map (Node.observe u'.data) := by
    refine map_observe_of_nodeOf (mapM_eq_ok.mp hnodes) (mapM_eq_ok.mp hnodes') fun d hd => ?_
    by_cases hid : d.target ∈ ids
    · exact Or.inr ⟨hstochastic d hd hid, hmissing _ hid⟩
    · exact Or.inl (hgrows.others _ hid)
  have hsound := Links.sound_of_foldlM
    (Links.sound_start (nodup_firstDefinitions u.definitions)) hlinks
  -- A leaf has its value from the old data already, so observing it changes nothing.
  have hleaves : links'.leaves.map (Node.observe u'.data) = links'.leaves := by
    refine (List.map_congr_left fun n hn => ?_).trans (List.map_id _)
    obtain ⟨v, -, hleaf⟩ := hsound.from_data n hn
    rw [hleaf]
    rfl
  rw [zipWith_observe, ← hleaves, ← List.map_append] at hg'
  generalize List.zipWith (fun (n : Node) ps => { n with parents := ps }) nodes links'.parents
    ++ links'.leaves = all at hg hg'
  have hparents : (all.map (Node.observe u'.data)).map (·.parents) = all.map (·.parents) := by
    rw [List.map_map]
    exact List.map_congr_left fun n _ => Node.observe_parents u'.data n
  unfold assemble at hg hg'
  dsimp only at hg hg'
  rw [hparents] at hg'
  split at hg
  · cases hg
  · next order horder =>
    rw [horder] at hg'
    cases hg
    cases hg'
    exact ⟨rfl, rfl⟩

end Graph

end BayesGraph
