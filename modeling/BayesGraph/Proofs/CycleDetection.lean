import BayesGraph.Proofs.ArrayBounds
import BayesGraph.Proofs.Constants
import BayesGraph.Proofs.Cycles
import BayesGraph.Proofs.Renumbering

/-!
# Cyclic definitions

A build refuses a model exactly if, in the end, the definitions that the graph uses refer to each
other in a circle. Of several definitions of an identity only the first one is used, and it is not
used either if it is logical and the data has a value; leaves of data refer to nothing. The cycle
that is reported is one of identities, each of them mentioned by the definition of the next.
-/

set_option autoImplicit false

namespace BayesGraph

open Outcome

/-! ## References and occurrences -/

namespace Expr

mutual

/-- Whatever is listed as a reference stands somewhere in the expression. -/
theorem mentions_of_mem_refs (e : Expr) {ids : List Identity} (h : e.refs = .ok ids)
    {id : Identity} (hid : id ∈ ids) : e.Mentions id := by
  match e with
  | .literal _ =>
    cases h
    simp at hid
  | .ref _ =>
    cases h
    rw [List.mem_singleton] at hid
    exact hid ▸ .ref
  | .refArray _ _ =>
    cases h
    exact .block hid
  | .negate val =>
    rw [refs] at h
    exact .negate (mentions_of_mem_refs val h hid)
  | .add a b =>
    simp only [refs, bind_eq_ok, pure_eq_ok] at h
    obtain ⟨left, hleft, right, hright, rfl⟩ := h
    exact (List.mem_append.mp hid).elim (fun hid => .addLeft (mentions_of_mem_refs a hleft hid))
      fun hid => .addRight (mentions_of_mem_refs b hright hid)
  | .sub a b =>
    simp only [refs, bind_eq_ok, pure_eq_ok] at h
    obtain ⟨left, hleft, right, hright, rfl⟩ := h
    exact (List.mem_append.mp hid).elim (fun hid => .subLeft (mentions_of_mem_refs a hleft hid))
      fun hid => .subRight (mentions_of_mem_refs b hright hid)
  | .mul a b =>
    simp only [refs, bind_eq_ok, pure_eq_ok] at h
    obtain ⟨left, hleft, right, hright, rfl⟩ := h
    exact (List.mem_append.mp hid).elim (fun hid => .mulLeft (mentions_of_mem_refs a hleft hid))
      fun hid => .mulRight (mentions_of_mem_refs b hright hid)
  | .div a b =>
    simp only [refs, bind_eq_ok, pure_eq_ok] at h
    obtain ⟨left, hleft, right, hright, rfl⟩ := h
    exact (List.mem_append.mp hid).elim (fun hid => .divLeft (mentions_of_mem_refs a hleft hid))
      fun hid => .divRight (mentions_of_mem_refs b hright hid)
  | .pow a b =>
    simp only [refs, bind_eq_ok, pure_eq_ok] at h
    obtain ⟨left, hleft, right, hright, rfl⟩ := h
    exact (List.mem_append.mp hid).elim (fun hid => .powLeft (mentions_of_mem_refs a hleft hid))
      fun hid => .powRight (mentions_of_mem_refs b hright hid)
  | .call func arguments =>
    rw [refs] at h
    obtain ⟨e, he, hmentions⟩ := mentions_of_mem_refsOfAll arguments h hid
    exact .call he hmentions
  | .var _ | .colon | .range _ _ | .index _ _ | .raw _ | .rawList _ => cases h

/-- Whatever is listed as a reference of some expressions stands in one of them. -/
theorem mentions_of_mem_refsOfAll (es : List Expr) {ids : List Identity}
    (h : refsOfAll es = .ok ids) {id : Identity} (hid : id ∈ ids) : ∃ e ∈ es, e.Mentions id := by
  match es with
  | [] =>
    cases h
    simp at hid
  | e :: rest =>
    simp only [refsOfAll, bind_eq_ok, pure_eq_ok] at h
    obtain ⟨first, hfirst, others, hothers, rfl⟩ := h
    rcases List.mem_append.mp hid with hid | hid
    · exact ⟨e, List.mem_cons_self, mentions_of_mem_refs e hfirst hid⟩
    · obtain ⟨e', he', hmentions⟩ := mentions_of_mem_refsOfAll rest hothers hid
      exact ⟨e', List.mem_cons_of_mem e he', hmentions⟩

end

end Expr

/-- The references of a meaning are the identities that stand in it. -/
theorem Meaning.mentions_iff {m : Meaning} {ids : List Identity} (h : m.refs = .ok ids)
    {id : Identity} : m.Mentions id ↔ id ∈ ids :=
  ⟨fun hid => hid.mem_refs h, fun hid => Expr.mentions_of_mem_refsOfAll m.parts h hid⟩

namespace Unrolled

variable {β : Type}

/-- The definition of `v` that the graph uses mentions `ref`. -/
def Uses (u : Unrolled β) (ref v : Identity) : Prop :=
  ∃ d, u.first? v = some d ∧ d.isOverridden u.data = false ∧ d.meaning.Mentions ref

/-- What is used are the references that become parents. -/
theorem uses_iff {u : Unrolled β} (hrefs : ∀ d ∈ u.definitions, d.meaning.refs = .ok d.refs)
    {ref v : Identity} :
    u.Uses ref v ↔ ∃ d, u.first? v = some d ∧ ref ∈ d.usedRefs u.data := by
  unfold Uses
  refine exists_congr fun d => and_congr_right fun hd => ?_
  have hmem : d ∈ u.definitions := List.mem_of_find?_eq_some hd
  rw [Meaning.mentions_iff (hrefs d hmem)]
  unfold Definition.usedRefs
  cases d.isOverridden u.data <;> simp [mem_distinct]

end Unrolled

namespace Graph

variable {α β : Type}

namespace IsLinked

section

variable {r : Registry α} {data : Bindings} {ds : List Definition} {nodes : List Node}

/-- A node comes from a definition, and its parents are the places of the references that this uses;
or it is a leaf without parents that no definition defines. -/
theorem cases (h : IsLinked r data ds nodes) {n : Node} (hn : n ∈ nodes) :
    (∃ d ∈ ds, n.id = d.target ∧ n.statement = some d.source ∧
      (d.usedRefs data).map (placeOf (nodes.map (·.id))) = n.parents.map some) ∨
    n.id ∉ ds.map (·.target) ∧ n.parents = [] := by
  obtain ⟨bare, links, hbare, hlinks, rfl⟩ := h
  rw [map_id hbare hlinks]
  rcases List.mem_append.mp hn with hn | hn
  · obtain ⟨d, hd, hid, -, hstatement, hplaces⟩ :=
      mem_zipWith_linked (mapM_eq_ok.mp hbare) hlinks.parents hn
    exact Or.inl ⟨d, hd, hid, hstatement, hplaces⟩
  · refine Or.inr ⟨fun hmem => ?_, ?_⟩
    · have hnodup := hlinks.nodup
      rw [hlinks.ids, List.nodup_append] at hnodup
      exact hnodup.2.2 _ hmem _ (List.mem_map_of_mem hn) rfl
    · obtain ⟨v, -, hleaf⟩ := hlinks.from_data n hn
      rw [hleaf]
      rfl

/-- Every definition has a node. -/
theorem exists_node (h : IsLinked r data ds nodes) {d : Definition} (hd : d ∈ ds) :
    ∃ n ∈ nodes, n.id = d.target := by
  obtain ⟨bare, links, hbare, hlinks, rfl⟩ := h
  have hmem : d.target ∈ links.ids := by
    rw [hlinks.ids]
    exact List.mem_append_left _ (List.mem_map_of_mem hd)
  rw [← map_id hbare hlinks] at hmem
  exact List.mem_map.mp hmem

/-- One node is a parent of another exactly if the definition of that one uses a reference to it. -/
theorem mem_parents_iff (h : IsLinked r data ds nodes) (hds : (ds.map (·.target)).Nodup)
    {n p : Node} {j : Nat} (hn : n ∈ nodes) (hp : nodes[j]? = some p) :
    j ∈ n.parents ↔ ∃ d ∈ ds, d.target = n.id ∧ p.id ∈ d.usedRefs data := by
  have hplace : ∀ ref, placeOf (nodes.map (·.id)) ref = some j ↔ p.id = ref := by
    intro ref
    rw [placeOf_eq_some_iff h.nodup, List.getElem?_map, hp, Option.map_some, Option.some.injEq]
  rcases h.cases hn with ⟨d, hd, hid, -, hplaces⟩ | ⟨hleaf, hnone⟩
  · have hmem : j ∈ n.parents ↔ some j ∈ (d.usedRefs data).map (placeOf (nodes.map (·.id))) := by
      rw [hplaces, List.mem_map]
      simp
    rw [hmem, List.mem_map]
    constructor
    · rintro ⟨ref, href, hj⟩
      exact ⟨d, hd, hid.symm, (hplace ref).mp hj ▸ href⟩
    · rintro ⟨e, he, htarget, href⟩
      have hsame : e = d := List.inj_on_of_nodup_map hds he hd (htarget.trans hid)
      subst hsame
      exact ⟨p.id, href, (hplace p.id).mpr rfl⟩
  · rw [hnone]
    constructor
    · simp
    · rintro ⟨d, hd, htarget, -⟩
      exact absurd (htarget ▸ List.mem_map_of_mem hd) hleaf

/-- A reference that a definition uses has a node. -/
theorem exists_node_of_ref (h : IsLinked r data ds nodes) (hds : (ds.map (·.target)).Nodup)
    {d : Definition} (hd : d ∈ ds) {ref : Identity} (href : ref ∈ d.usedRefs data) :
    ∃ p ∈ nodes, p.id = ref := by
  obtain ⟨n, hn, hid⟩ := h.exists_node hd
  rcases h.cases hn with ⟨e, he, hid', -, hplaces⟩ | ⟨hleaf, -⟩
  · have hsame : e = d := List.inj_on_of_nodup_map hds he hd (hid'.symm.trans hid)
    subst hsame
    have hplace : placeOf (nodes.map (·.id)) ref ∈ n.parents.map some :=
      hplaces ▸ List.mem_map_of_mem href
    obtain ⟨j, -, hj⟩ := List.mem_map.mp hplace
    exact List.mem_map.mp (List.mem_of_getElem? ((placeOf_eq_some_iff h.nodup).mp hj.symm))
  · exact absurd (hid ▸ List.mem_map_of_mem hd) hleaf

end

end IsLinked

/-! ## Edges between identities -/

variable {u : Unrolled β} {r : Registry α} {nodes : List Node}

/-- The definition that is found first for an identity is the first one with this target. -/
theorem first?_eq_some_iff {d : Definition} {v : Identity} :
    u.first? v = some d ↔ d ∈ (firstDefinitions u.definitions).1 ∧ d.target = v := by
  unfold Unrolled.first?
  rw [← find?_firstDefinitions]
  constructor
  · intro h
    exact ⟨List.mem_of_find?_eq_some h, by simpa using List.find?_some h⟩
  · rintro ⟨hd, rfl⟩
    exact find?_target (nodup_firstDefinitions _) hd

section

variable (hrefs : ∀ d ∈ u.definitions, d.meaning.refs = .ok d.refs)
  (h : IsLinked r u.data (firstDefinitions u.definitions).1 nodes)

include hrefs h

/-- The edges between nodes are the uses of their identities. -/
theorem edge_iff {i j : Nat} {p n : Node} (hp : nodes[i]? = some p) (hn : nodes[j]? = some n) :
    ParentLists.Edge (nodes.map (·.parents)) i j ↔ u.Uses p.id n.id := by
  have hparents : ParentLists.parents (nodes.map (·.parents)) j = n.parents := by
    unfold ParentLists.parents
    simp [hn]
  unfold ParentLists.Edge
  rw [hparents, h.mem_parents_iff (nodup_firstDefinitions _) (List.mem_of_getElem? hn) hp,
    Unrolled.uses_iff hrefs]
  simp only [first?_eq_some_iff, and_assoc]

/-- Both identities of a use have nodes. -/
theorem nodes_of_uses {ref v : Identity} (huses : u.Uses ref v) :
    (∃ p ∈ nodes, p.id = ref) ∧ ∃ n ∈ nodes, n.id = v := by
  obtain ⟨d, hd, href⟩ := (Unrolled.uses_iff hrefs).mp huses
  obtain ⟨hmem, rfl⟩ := first?_eq_some_iff.mp hd
  exact ⟨h.exists_node_of_ref (nodup_firstDefinitions _) hmem href, h.exists_node hmem⟩

/-- A chain of uses is a way along edges. -/
theorem exists_transGen_edge {ref v : Identity} (huses : Relation.TransGen u.Uses ref v) :
    ∃ (i j : Nat) (p n : Node), nodes[i]? = some p ∧ p.id = ref ∧ nodes[j]? = some n ∧ n.id = v ∧
      Relation.TransGen (ParentLists.Edge (nodes.map (·.parents))) i j := by
  have hstep : ∀ {a b : Identity}, u.Uses a b → ∀ {i : Nat} {p : Node}, nodes[i]? = some p →
      p.id = a → ∃ (j : Nat) (n : Node), nodes[j]? = some n ∧ n.id = b ∧
        ParentLists.Edge (nodes.map (·.parents)) i j := by
    intro a b hab i p hp hpa
    obtain ⟨-, n, hn, hnb⟩ := nodes_of_uses hrefs h hab
    obtain ⟨j, hj⟩ := List.getElem?_of_mem hn
    exact ⟨j, n, hj, hnb, (edge_iff hrefs h hp hj).mpr (hpa ▸ hnb ▸ hab)⟩
  induction huses with
  | single hab =>
    obtain ⟨⟨p, hp, hpa⟩, -⟩ := nodes_of_uses hrefs h hab
    obtain ⟨i, hi⟩ := List.getElem?_of_mem hp
    obtain ⟨j, n, hn, hnb, hedge⟩ := hstep hab hi hpa
    exact ⟨i, j, p, n, hi, hpa, hn, hnb, .single hedge⟩
  | tail _ hbc ih =>
    obtain ⟨i, j, p, n, hp, hpa, hn, hnb, hpath⟩ := ih
    obtain ⟨k, q, hq, hqc, hedge⟩ := hstep hbc hn hnb
    exact ⟨i, k, p, q, hp, hpa, hq, hqc, hpath.tail hedge⟩

/-- If the nodes can be ordered, no identity uses itself, directly or through others. -/
theorem acyclic_of_isOrder {order : List Nat}
    (horder : ParentLists.IsOrder (nodes.map (·.parents)) order) (v : Identity) :
    ¬ Relation.TransGen u.Uses v v := by
  intro hcycle
  obtain ⟨i, j, p, n, hp, hpv, hn, hnv, hpath⟩ := exists_transGen_edge hrefs h hcycle
  have hplace : ∀ {k : Nat} {q : Node}, nodes[k]? = some q → q.id = v →
      placeOf (nodes.map (·.id)) v = some k := by
    intro k q hq hqv
    rw [placeOf_eq_some_iff h.nodup, List.getElem?_map, hq, Option.map_some, hqv]
  have hsame : some i = some j := (hplace hp hpv).symm.trans (hplace hn hnv)
  cases hsame
  exact horder.acyclic i hpath

/-- A cycle of nodes is one of identities, and the error shows the statement of the second one. -/
theorem isCycle_identities {c : List Nat}
    (hc : IsCycle (ParentLists.Edge (nodes.map (·.parents))) c) :
    ∃ ids d, cycleError nodes c = .compile ⟨.cycle ids, none, some d.source⟩ ∧
      IsCycle u.Uses ids ∧ ∃ v, ids[1]? = some v ∧ u.first? v = some d := by
  have hnode : ∀ i ∈ c, ∃ n, nodes[i]? = some n := by
    intro i hi
    obtain ⟨j, -, hedge⟩ := hc.exists_rel hi
    have hlt := ParentLists.lt_of_edge hedge
    rw [List.length_map] at hlt
    exact ⟨_, List.getElem?_eq_getElem hlt⟩
  obtain ⟨idOf, hidOf⟩ : ∃ idOf : Nat → Identity,
      ∀ i n, nodes[i]? = some n → idOf i = n.id :=
    ⟨fun i => ((nodes[i]?).map (·.id)).getD default, fun i n hn => by simp [hn]⟩
  have hids : c.filterMap (fun i => (nodes[i]?).map (·.id)) = c.map idOf := by
    rw [← List.filterMap_eq_map]
    refine List.filterMap_congr fun i hi => ?_
    obtain ⟨n, hn⟩ := hnode i hi
    simp [hn, hidOf i n hn]
  have hcycle : IsCycle u.Uses (c.map idOf) := by
    refine hc.map (fun i hi j hj hsame => ?_) fun i hi j hj hedge => ?_
    · obtain ⟨p, hp⟩ := hnode i hi
      obtain ⟨n, hn⟩ := hnode j hj
      rw [hidOf i p hp, hidOf j n hn] at hsame
      -- Names are without repetition, so a name on the cycle has one place.
      have hplace : ∀ {k : Nat} {q : Node}, nodes[k]? = some q →
          placeOf (nodes.map (·.id)) q.id = some k := by
        intro k q hq
        rw [placeOf_eq_some_iff h.nodup, List.getElem?_map, hq, Option.map_some]
      have hij : some i = some j := by rw [← hplace hp, ← hplace hn, hsame]
      exact Option.some.inj hij
    · obtain ⟨p, hp⟩ := hnode i hi
      obtain ⟨n, hn⟩ := hnode j hj
      rw [hidOf i p hp, hidOf j n hn]
      exact (edge_iff hrefs h hp hn).mp hedge
  -- The error names the statement of the second node on the cycle, whose definition uses the
  -- first.
  obtain ⟨i, j, rest, rfl, hedge, -, -⟩ := hc.exists_cons
  obtain ⟨p, hp⟩ := hnode i (by simp)
  obtain ⟨n, hn⟩ := hnode j (by simp)
  obtain ⟨d, hd, -⟩ := (edge_iff hrefs h hp hn).mp hedge
  have hstatement : n.statement = some d.source := by
    obtain ⟨hmem, htarget⟩ := first?_eq_some_iff.mp hd
    rcases h.cases (List.mem_of_getElem? hn) with ⟨e, he, hid, hsource, -⟩ | ⟨hleaf, -⟩
    · have hsame : e = d :=
        List.inj_on_of_nodup_map (nodup_firstDefinitions _) he hmem (hid.symm.trans htarget.symm)
      exact hsame ▸ hsource
    · exact absurd (htarget ▸ List.mem_map_of_mem hmem) hleaf
  refine ⟨_, d, ?_, hcycle, n.id, by simp [hidOf j n hn], hd⟩
  unfold cycleError
  rw [hids]
  simp [hn, hstatement]

end

/-! ## The outcome -/

/-- The checks between unrolling and ordering pass: families and functions are known and fit, and
all references that are used are defined or in the data. -/
def PassesChecks (u : Unrolled β) (r : Registry α) : Prop :=
  ∃ nodes links, (firstDefinitions u.definitions).1.mapM (nodeOf r u.data) = .ok nodes ∧
    (firstDefinitions u.definitions).1.foldlM (Links.add u.data)
      ⟨(firstDefinitions u.definitions).1.map (·.target), [], []⟩ = .ok links

/-- Behind the checks, the graph is put together from nodes with parents. -/
theorem ofUnrolled_of_passesChecks (h : PassesChecks u r) :
    ∃ nodes warnings, IsLinked r u.data (firstDefinitions u.definitions).1 nodes ∧
      ofUnrolled u r = assemble nodes warnings := by
  obtain ⟨bare, links, hbare, hlinks⟩ := h
  have hsound := Links.sound_of_foldlM
    (Links.sound_start (nodup_firstDefinitions u.definitions)) hlinks
  rw [List.nil_append] at hsound
  refine ⟨List.zipWith (fun (n : Node) ps => { n with parents := ps }) bare links.parents ++
    links.leaves, (firstDefinitions u.definitions).2 ++
      ((firstDefinitions u.definitions).1.filter (·.isOverridden u.data)).map overriddenMessage,
    ⟨bare, links, hbare, hsound, rfl⟩, ?_⟩
  unfold ofUnrolled
  simp only [hbare, hlinks, ok_bind]

/-- Behind the checks, an unrolled model has a graph, unless its definitions are cyclic. -/
theorem ofUnrolled_cases (hrefs : ∀ d ∈ u.definitions, d.meaning.refs = .ok d.refs)
    (hchecks : PassesChecks u r) :
    (∃ g, ofUnrolled u r = .ok g ∧ ∀ v, ¬ Relation.TransGen u.Uses v v) ∨
    ∃ ids d, ofUnrolled u r = .error (.compile ⟨.cycle ids, none, some d.source⟩) ∧
      IsCycle u.Uses ids ∧ ∃ v, ids[1]? = some v ∧ u.first? v = some d := by
  obtain ⟨nodes, warnings, h, hassemble⟩ := ofUnrolled_of_passesChecks hchecks
  have hrange : ∀ i j, ParentLists.Edge (nodes.map (·.parents)) i j →
      i < (nodes.map (·.parents)).length := by
    intro i j hedge
    have hlt := ParentLists.lt_of_edge hedge
    rw [List.length_map] at hlt
    have hn := List.getElem?_eq_getElem hlt
    have hmem : i ∈ nodes[j].parents := by
      unfold ParentLists.Edge ParentLists.parents at hedge
      simpa [hn] using hedge
    obtain ⟨p, hp⟩ := h.exists_parent (List.mem_of_getElem? hn) hmem
    rw [List.length_map]
    exact (List.getElem?_eq_some_iff.mp hp).1
  rw [hassemble]
  unfold assemble
  dsimp only
  cases horder : ParentLists.order? (nodes.map (·.parents)) with
  | none =>
    obtain ⟨c, hc, hcycle⟩ := (ParentLists.order?_eq_none_iff hrange).mp horder
    obtain ⟨ids, d, herror, hids⟩ := isCycle_identities hrefs h hcycle
    refine Or.inr ⟨ids, d, ?_, hids⟩
    rw [hc]
    exact congrArg Except.error herror
  | some order =>
    refine Or.inl ⟨_, rfl, ?_⟩
    exact acyclic_of_isOrder hrefs h (ParentLists.isOrder_of_order? horder)

variable [Scalar α]

/-- If all checks before pass, a build reports a cycle exactly if some identity is used by its own
definition, directly or through others, and has a graph otherwise. The cycle begins and ends with
the same identity, has no other repetition, and each of its members is used by the next one. -/
theorem build_cyclic_iff {m : Model} {bindings : Table String Datum} {r : Registry α}
    {u : Unrolled α} {names : List Datum}
    (hnames : Names.verdict m bindings.keys r.contains = .ok names)
    (hu : Unrolled.make m bindings r.foldingFunctions = .ok u) (hchecks : PassesChecks u r) :
    ((∃ ids id source, (build m bindings r).collect.1 =
        .error (.compile ⟨.cycle ids, id, source⟩)) ↔ ∃ v, Relation.TransGen u.Uses v v) ∧
    ((∀ v, ¬ Relation.TransGen u.Uses v v) → ∃ g, (build m bindings r).collect.1 = .ok g) ∧
    ∀ ids id source, (build m bindings r).collect.1 =
        .error (.compile ⟨.cycle ids, id, source⟩) →
      IsCycle u.Uses ids ∧ id = none ∧ ∃ v d, ids[1]? = some v ∧ u.first? v = some d ∧
        source = some d.source := by
  have hbuild : (build m bindings r).collect.1 = ofUnrolled u r := by
    rw [build_result, hnames, ok_bind, hu, ok_bind]
  rw [hbuild]
  rcases ofUnrolled_cases (fun d hd => Unrolled.refs_of_make hu hd) hchecks with
    ⟨g, hg, hacyclic⟩ | ⟨ids, d, herror, hcycle, v, hv, hd⟩
  · rw [hg]
    refine ⟨⟨?_, ?_⟩, fun _ => ⟨g, rfl⟩, ?_⟩
    · rintro ⟨_, _, _, herror⟩
      cases herror
    · rintro ⟨v, hv⟩
      exact absurd hv (hacyclic v)
    · intro _ _ _ herror
      cases herror
  · rw [herror]
    refine ⟨⟨fun _ => hcycle.transGen, fun _ => ⟨_, _, _, rfl⟩⟩, fun hacyclic => ?_, ?_⟩
    · obtain ⟨w, hw⟩ := hcycle.transGen
      exact absurd hw (hacyclic w)
    · intro _ _ _ hsame
      cases hsame
      exact ⟨hcycle, rfl, v, d, hv, hd, rfl⟩

/-! ## Two variables that define each other -/

/-- The mean of `x` is `y`, and `y` is computed from `x`. -/
def circularModel : Model where
  statements :=
    [.sample [] (.var (.text "x"))
      (.dist { name := .text "dnorm", params := [.var (.text "y"), .literal (.int 1)] }),
    .assign [] (.var (.text "y")) (.add (.var (.text "x")) (.literal (.int 1)))]

/-- The unrolled model. -/
def circularUnrolled : Unrolled Dual where
  definitions :=
    [⟨⟨"x", []⟩, .dist { name := .text "dnorm", params := [.ref ⟨"y", []⟩, .literal (.int 1)] },
      [⟨"y", []⟩], "x ~ dnorm(y, 1)"⟩,
    ⟨⟨"y", []⟩, .expr (.add (.ref ⟨"x", []⟩) (.literal (.int 1))), [⟨"x", []⟩], "y <- x + 1"⟩]
  shapes := ⟨Table.empty, ⟨[("x", []), ("y", [])]⟩⟩
  data := Bindings.empty
  constants := Table.empty

/-- The model is unrolled as the two definitions. -/
theorem make_circularModel :
    Unrolled.make circularModel Table.empty
      (Registry.builtin : Registry Dual).foldingFunctions = .ok circularUnrolled :=
  Unrolled.make_eq_ok_iff.mpr ⟨_, rfl, Folding.saturate_eq_ok rfl rfl, rfl, rfl⟩

/-- The definitions pass all checks but the one for cycles. -/
theorem passesChecks_circularModel :
    PassesChecks circularUnrolled (Registry.builtin : Registry Dual) := ⟨_, _, rfl, rfl⟩

/-- Both variables use each other. -/
theorem uses_circularModel :
    circularUnrolled.Uses ⟨"y", []⟩ ⟨"x", []⟩ ∧ circularUnrolled.Uses ⟨"x", []⟩ ⟨"y", []⟩ :=
  ⟨⟨_, rfl, rfl, _, List.mem_cons_self, .ref⟩, ⟨_, rfl, rfl, _, List.mem_cons_self, .addLeft .ref⟩⟩

/-- The build of the model reports a cycle. -/
theorem build_circularModel :
    (∃ names, Names.verdict circularModel (Table.empty : Table String Datum).keys
      (Registry.builtin : Registry Dual).contains = .ok names) ∧
    Unrolled.make circularModel Table.empty (Registry.builtin : Registry Dual).foldingFunctions =
      .ok circularUnrolled ∧
    PassesChecks circularUnrolled (Registry.builtin : Registry Dual) ∧
    ∃ ids id source, (build circularModel Table.empty (Registry.builtin : Registry Dual)).collect.1 =
      .error (.compile ⟨.cycle ids, id, source⟩) := by
  have hnames : Names.verdict circularModel (Table.empty : Table String Datum).keys
      (Registry.builtin : Registry Dual).contains = .ok [.text "x", .text "y"] := rfl
  obtain ⟨hxy, hyx⟩ := uses_circularModel
  refine ⟨⟨_, hnames⟩, make_circularModel, passesChecks_circularModel, ?_⟩
  refine (build_cyclic_iff hnames make_circularModel passesChecks_circularModel).1.mpr ?_
  exact ⟨⟨"x", []⟩, .tail (.single hyx) hxy⟩

end Graph

end BayesGraph
