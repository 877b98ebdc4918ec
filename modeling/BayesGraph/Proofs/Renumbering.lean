import Mathlib.Data.List.Sort
import BayesGraph.Coordinates
import BayesGraph.Proofs.Solution
import BayesGraph.Proofs.StatementOrder

/-!
# Graphs with other numbers

Two graphs are the same up to the numbers of their nodes if their nodes look the same without
numbers: identity, role, label and text, and the identities of the parents. Definitions in another
order give such graphs. A graph has an order exactly if some rank rises along its edges, and a rank
by identity does not depend on numbers. Evaluations of such graphs find the same values, and in
exact arithmetic the same density.
-/

set_option autoImplicit false

namespace BayesGraph

open Outcome

/-! ## Ranks -/

namespace ParentLists

variable {g : ParentLists}

/-- Nodes that are sorted by a rank come after their parents, if the rank rises along edges. -/
theorem parentsFirst_of_pairwise {rank : Nat → Nat}
    (hrank : ∀ i < g.length, ∀ j ∈ g.parents i, j < g.length ∧ rank j < rank i)
    {placed order : List Nat} (hperm : (placed ++ order).Perm (List.range g.length))
    (hsorted : order.Pairwise fun i j => rank i ≤ rank j) : g.ParentsFirst placed order := by
  induction order generalizing placed with
  | nil => trivial
  | cons i rest ih =>
    obtain ⟨hhead, hrest⟩ := List.pairwise_cons.mp hsorted
    refine ⟨fun j hj => ?_, ih (by simpa using hperm) hrest⟩
    have hi : i < g.length :=
      List.mem_range.mp (hperm.mem_iff.mp (List.mem_append_right placed List.mem_cons_self))
    obtain ⟨hlt, hless⟩ := hrank i hi j hj
    -- a parent is neither the node itself nor one of the nodes with a higher rank
    rcases List.mem_append.mp (hperm.mem_iff.mpr (List.mem_range.mpr hlt)) with hplaced | hmem
    · exact hplaced
    · rcases List.mem_cons.mp hmem with rfl | hmem
      · exact absurd hless (Nat.lt_irrefl _)
      · exact absurd (hhead j hmem) (Nat.not_le.mpr hless)

/-- A graph has an order exactly if there is a rank that rises along its edges. -/
theorem exists_isOrder_iff : (∃ order, g.IsOrder order) ↔
    ∃ rank : Nat → Nat, ∀ i < g.length, ∀ j ∈ g.parents i, j < g.length ∧ rank j < rank i := by
  constructor
  · rintro ⟨order, h⟩
    exact ⟨order.idxOf, fun i hi j hj => h.idxOf_lt hi hj⟩
  · rintro ⟨rank, hrank⟩
    let order := (List.range g.length).mergeSort fun i j => decide (rank i ≤ rank j)
    have hperm : order.Perm (List.range g.length) := List.mergeSort_perm _ _
    have hsorted : order.Pairwise fun i j => rank i ≤ rank j := by
      have hpairwise : order.Pairwise fun i j => decide (rank i ≤ rank j) = true :=
        List.pairwise_mergeSort (by simpa using fun a b c => Nat.le_trans)
          (by simpa using fun a b => Nat.le_total (rank a) (rank b)) _
      exact hpairwise.imp of_decide_eq_true
    exact ⟨order, hperm, parentsFirst_of_pairwise hrank hperm hsorted⟩

end ParentLists

namespace Graph

variable {α : Type}

/-! ## Definitions in another order -/

/-- Definitions with different targets are all first. -/
theorem firstDefinitions_of_nodup {ds : List Definition} (h : (ds.map (·.target)).Nodup) :
    (firstDefinitions ds).1 = ds := by
  induction ds using List.reverseRecOn with
  | nil => rfl
  | append_singleton ds d ih =>
    rw [List.map_append, List.nodup_append] at h
    have hnone : ds.find? (fun e => decide (e.target = d.target)) = none := by
      refine List.find?_eq_none.mpr fun e he heq => ?_
      exact h.2.2 e.target (List.mem_map_of_mem he) d.target (by simp) (of_decide_eq_true heq)
    rw [firstDefinitions_append, ih h.1, hnone]

/-- A reference that is linked or has a value in the data can be resolved, and nothing that is
linked is lost. -/
theorem Links.exists_resolve {data : Bindings} (d : Definition) {links : Links} {ref : Identity}
    (h : ref ∈ links.ids ∨ (data.values.get? ref).isSome) :
    ∃ links' i, links.resolve data d ref = .ok (links', i) ∧ links.ids ⊆ links'.ids := by
  unfold resolve
  split
  · next i _ => exact ⟨links, i, rfl, List.Subset.refl _⟩
  · next hnone =>
    have hvalue := h.resolve_left (placeOf_eq_none_iff.mp hnone)
    obtain ⟨v, hv⟩ := Option.isSome_iff_exists.mp hvalue
    rw [hv]
    exact ⟨_, _, rfl, List.subset_append_left _ _⟩

/-- The same for references one after the other. -/
theorem Links.exists_resolveAll {data : Bindings} (d : Definition) {links : Links}
    {refs : List Identity}
    (h : ∀ ref ∈ refs, ref ∈ links.ids ∨ (data.values.get? ref).isSome) :
    ∃ links' is, links.resolveAll data d refs = .ok (links', is) ∧ links.ids ⊆ links'.ids := by
  induction refs generalizing links with
  | nil => exact ⟨links, [], rfl, List.Subset.refl _⟩
  | cons ref refs ih =>
    obtain ⟨mid, i, hmid, hsub⟩ := exists_resolve d (h ref List.mem_cons_self)
    obtain ⟨last, is, hlast, hsub'⟩ := @ih mid fun r hr =>
      (h r (List.mem_cons_of_mem ref hr)).imp_left (hsub ·)
    refine ⟨last, i :: is, ?_, fun id hid => hsub' (hsub hid)⟩
    simp only [resolveAll, hmid, ok_bind, hlast]
    rfl

/-- All definitions can be linked if each of their references is a target or has a value in the
data. -/
theorem Links.exists_foldlM {data : Bindings} {ds : List Definition} {links : Links}
    (h : ∀ d ∈ ds, ∀ ref ∈ d.usedRefs data, ref ∈ links.ids ∨ (data.values.get? ref).isSome) :
    ∃ links', ds.foldlM (Links.add data) links = .ok links' := by
  induction ds generalizing links with
  | nil => exact ⟨links, rfl⟩
  | cons d ds ih =>
    obtain ⟨mid, is, hmid, hsub⟩ := exists_resolveAll d (h d List.mem_cons_self)
    have hadd : links.add data d = .ok { mid with parents := mid.parents ++ [is] } := by
      rw [add, hmid]
      rfl
    obtain ⟨last, hlast⟩ := @ih { mid with parents := mid.parents ++ [is] } fun e he ref href =>
      (h e (List.mem_cons_of_mem d he) ref href).imp_left (hsub ·)
    exact ⟨last, by rw [List.foldlM_cons, hadd, ok_bind, hlast]⟩

/-- A node as it is without numbers. -/
structure Portrait where
  id : Identity
  role : Role
  /-- The identities of the parents. -/
  parents : List Identity
  support : Option SupportKind
  statement : Option String

/-- A node among others, without numbers. -/
def portrait (nodes : List Node) (n : Node) : Portrait where
  id := n.id
  role := n.role
  parents := n.parents.filterMap fun i => (nodes[i]?).map (·.id)
  support := n.support
  statement := n.statement

/-- The nodes of some definitions with the leaves that they need, before they are put in order. -/
def IsLinked (r : Registry α) (data : Bindings) (ds : List Definition) (nodes : List Node) : Prop :=
  ∃ bare links, ds.mapM (nodeOf r data) = .ok bare ∧
    Links.Sound data (ds.map (·.target)) ds links ∧
    nodes = List.zipWith (fun (n : Node) ps => { n with parents := ps }) bare links.parents ++
      links.leaves

namespace IsLinked

variable {r : Registry α} {data : Bindings} {ds ds' : List Definition} {nodes nodes' : List Node}

/-- The identities in some places. -/
theorem filterMap_of_places {ids refs : List Identity} (hnodup : ids.Nodup) {is : List Nat}
    (h : refs.map (placeOf ids) = is.map some) : is.filterMap (fun i => ids[i]?) = refs := by
  induction is generalizing refs with
  | nil =>
    rw [List.map_nil, List.map_eq_nil_iff] at h
    rw [h]
    rfl
  | cons i is ih =>
    cases refs with
    | nil => cases h
    | cons ref refs =>
      rw [List.map_cons, List.map_cons, List.cons.injEq] at h
      rw [List.filterMap_cons, (placeOf_eq_some_iff hnodup).mp h.1, ih h.2]

/-- The identities of the linked nodes are those of the links. -/
theorem map_id {bare : List Node} {links : Links} (hbare : ds.mapM (nodeOf r data) = .ok bare)
    (hlinks : Links.Sound data (ds.map (·.target)) ds links) :
    (List.zipWith (fun (n : Node) ps => { n with parents := ps }) bare links.parents ++
      links.leaves).map (fun n : Node => n.id) = links.ids := by
  rw [List.map_append, map_id_zipWith (mapM_eq_ok.mp hbare) hlinks.parents.length_eq.symm,
    hlinks.ids]

/-- The same definitions in another order give nodes that look the same. -/
theorem exists_portrait (h : IsLinked r data ds nodes) (h' : IsLinked r data ds' nodes')
    (hperm : ds.Perm ds') {n : Node} (hn : n ∈ nodes) :
    ∃ n' ∈ nodes', portrait nodes' n' = portrait nodes n := by
  obtain ⟨bare, links, hbare, hlinks, rfl⟩ := h
  obtain ⟨bare', links', hbare', hlinks', rfl⟩ := h'
  have hids := map_id hbare hlinks
  have hids' := map_id hbare' hlinks'
  rcases List.mem_append.mp hn with hn | hn
  · obtain ⟨d, hd, n₀, is, hn₀, his, rfl⟩ :=
      exists_of_forall₂ (forall₂_linked (mapM_eq_ok.mp hbare) hlinks.parents).flip hn
    obtain ⟨n', hn', n₁, is', hn₁, his', rfl⟩ := exists_of_forall₂
      (forall₂_linked (mapM_eq_ok.mp hbare') hlinks'.parents) (hperm.mem_iff.mp hd)
    rw [hn₀, Except.ok.injEq] at hn₁
    subst hn₁
    refine ⟨_, List.mem_append_left _ hn', ?_⟩
    unfold portrait
    simp only [← List.getElem?_map, hids, hids', filterMap_of_places hlinks.nodup his,
      filterMap_of_places hlinks'.nodup his']
  · -- a leaf is needed by a definition that has it among its references in the other order, too
    obtain ⟨v, hv, hleaf⟩ := hlinks.from_data n hn
    obtain ⟨d, hd, href⟩ := hlinks.needed n hn
    have htargets : n.id ∉ ds.map (·.target) := by
      have hnodup := hlinks.nodup
      rw [hlinks.ids, List.nodup_append] at hnodup
      exact fun hmem => hnodup.2.2 _ hmem _ (List.mem_map_of_mem hn) rfl
    have hplaced : n.id ∈ links'.ids := by
      obtain ⟨is, -, his⟩ := exists_of_forall₂ hlinks'.parents (hperm.mem_iff.mp hd)
      have hplace : placeOf links'.ids n.id ∈ is.map some := his ▸ List.mem_map_of_mem href
      obtain ⟨i, -, hi⟩ := List.mem_map.mp hplace
      exact List.mem_of_getElem? ((placeOf_eq_some_iff hlinks'.nodup).mp hi.symm)
    rw [hlinks'.ids, List.mem_append] at hplaced
    obtain ⟨n', hn', hid⟩ := List.mem_map.mp (hplaced.resolve_left
      fun hmem => htargets ((hperm.map _).mem_iff.mpr hmem))
    obtain ⟨v', hv', hleaf'⟩ := hlinks'.from_data n' hn'
    rw [hid, hv, Option.some.injEq] at hv'
    subst hv'
    refine ⟨n', List.mem_append_right _ hn', ?_⟩
    rw [hleaf', hleaf, hid]
    rfl

/-- No identity has two nodes. -/
theorem nodup (h : IsLinked r data ds nodes) : (nodes.map (·.id)).Nodup := by
  obtain ⟨bare, links, hbare, hlinks, rfl⟩ := h
  rw [map_id hbare hlinks]
  exact hlinks.nodup

/-- The parents of a node are numbers of nodes. -/
theorem exists_parent (h : IsLinked r data ds nodes) {n : Node} (hn : n ∈ nodes) {j : Nat}
    (hj : j ∈ n.parents) : ∃ p, nodes[j]? = some p := by
  obtain ⟨bare, links, hbare, hlinks, rfl⟩ := h
  rcases List.mem_append.mp hn with hn | hn
  · obtain ⟨d, hd, n₀, is, hn₀, his, rfl⟩ :=
      exists_of_forall₂ (forall₂_linked (mapM_eq_ok.mp hbare) hlinks.parents).flip hn
    have hplace : some j ∈ (d.usedRefs data).map (placeOf links.ids) :=
      his ▸ List.mem_map_of_mem hj
    obtain ⟨ref, -, href⟩ := List.mem_map.mp hplace
    have hget := (placeOf_eq_some_iff hlinks.nodup).mp href
    rw [← map_id hbare hlinks, List.getElem?_map, Option.map_eq_some_iff] at hget
    obtain ⟨p, hp, -⟩ := hget
    exact ⟨p, hp⟩
  · obtain ⟨v, -, hleaf⟩ := hlinks.from_data n hn
    rw [hleaf] at hj
    cases hj

end IsLinked

/-! ## Graphs of rearranged definitions -/

/-- Two graphs with the same nodes, up to the numbers of the nodes. -/
def Renumbered (g g' : Graph) : Prop :=
  (g.nodes.map (portrait g.nodes)).Perm (g'.nodes.map (portrait g'.nodes))

/-- Nodes with different identities whose portraits occur on the other side, and the other way
round. -/
theorem perm_portraits {nodes nodes' : List Node} (hnodup : (nodes.map (·.id)).Nodup)
    (hnodup' : (nodes'.map (·.id)).Nodup)
    (h : ∀ n ∈ nodes, ∃ n' ∈ nodes', portrait nodes' n' = portrait nodes n)
    (h' : ∀ n' ∈ nodes', ∃ n ∈ nodes, portrait nodes n = portrait nodes' n') :
    (nodes.map (portrait nodes)).Perm (nodes'.map (portrait nodes')) := by
  have hdistinct : ∀ ns : List Node, (ns.map (·.id)).Nodup → (ns.map (portrait ns)).Nodup := by
    intro ns hns
    refine List.Nodup.of_map Portrait.id ?_
    rw [List.map_map]
    exact hns
  refine (List.perm_ext_iff_of_nodup (hdistinct _ hnodup) (hdistinct _ hnodup')).mpr fun p => ?_
  simp only [List.mem_map]
  constructor
  · rintro ⟨n, hn, rfl⟩
    exact h n hn
  · rintro ⟨n', hn', rfl⟩
    exact h' n' hn'

/-- An order of nodes leads to one of nodes that look the same. -/
theorem exists_isOrder_of_portraits {nodes nodes' : List Node} {order : List Nat}
    (horder : ParentLists.IsOrder (nodes.map (·.parents)) order)
    (hnodup : (nodes.map (·.id)).Nodup)
    (hparents : ∀ n' ∈ nodes', ∀ j ∈ n'.parents, ∃ p, nodes'[j]? = some p)
    (h : ∀ n' ∈ nodes', ∃ n ∈ nodes, portrait nodes n = portrait nodes' n') :
    ∃ order', ParentLists.IsOrder (nodes'.map (·.parents)) order' := by
  -- the rank of a node is the place of its identity in the given order
  let rankOf (id : Identity) : Nat := ((placeOf (nodes.map (·.id)) id).map order.idxOf).getD 0
  have hrankOf : ∀ {i : Nat} {n : Node}, nodes[i]? = some n → rankOf n.id = order.idxOf i := by
    intro i n hn
    have hplace : placeOf (nodes.map (·.id)) n.id = some i := by
      rw [placeOf_eq_some_iff hnodup, List.getElem?_map, hn]
      rfl
    simp [rankOf, hplace]
  refine ParentLists.exists_isOrder_iff.mpr
    ⟨fun i => ((nodes'[i]?).map fun n => rankOf n.id).getD 0, fun i hi j hj => ?_⟩
  rw [List.length_map] at hi ⊢
  have hn' := List.getElem?_eq_getElem hi
  have hparents' : ParentLists.parents (nodes'.map (·.parents)) i = nodes'[i].parents := by
    unfold ParentLists.parents
    simp [hn']
  rw [hparents'] at hj
  obtain ⟨p', hp'⟩ := hparents _ (List.getElem_mem hi) j hj
  refine ⟨(List.getElem?_eq_some_iff.mp hp').1, ?_⟩
  obtain ⟨n, hn, hsame⟩ := h _ (List.getElem_mem hi)
  unfold portrait at hsame
  rw [Portrait.mk.injEq] at hsame
  obtain ⟨hid, -, hids, -⟩ := hsame
  -- the parent has a counterpart among the parents of the counterpart
  have hmem : p'.id ∈ n.parents.filterMap fun i => (nodes[i]?).map (·.id) := by
    rw [hids]
    exact List.mem_filterMap.mpr ⟨j, hj, by rw [hp']; rfl⟩
  obtain ⟨k, hk, hkid⟩ := List.mem_filterMap.mp hmem
  obtain ⟨p, hp, hpid⟩ := Option.map_eq_some_iff.mp hkid
  obtain ⟨l, hl⟩ := List.getElem?_of_mem hn
  have hlparents : k ∈ ParentLists.parents (nodes.map (·.parents)) l := by
    unfold ParentLists.parents
    simpa [hl] using hk
  have hlt : l < (nodes.map (·.parents)).length := by
    rw [List.length_map]
    exact (List.getElem?_eq_some_iff.mp hl).1
  have hless := (horder.idxOf_lt hlt hlparents).2
  dsimp only
  rw [hp', hn', Option.map_some, Option.map_some, Option.getD_some, Option.getD_some, ← hid,
    ← hpid, hrankOf hp, hrankOf hl]
  exact hless

/-- The nodes of the graph of an unrolled model without duplicate definitions are linked. -/
theorem isLinked_of_ofUnrolled {β : Type} {u : Unrolled β} {r : Registry α} {g : Graph}
    (hnodup : (u.definitions.map (·.target)).Nodup) (h : ofUnrolled u r = .ok g) :
    IsLinked r u.data u.definitions g.nodes := by
  obtain ⟨nodes, links, hnodes, hlinks, hg, -, -⟩ := ofUnrolled_eq_ok h
  rw [firstDefinitions_of_nodup hnodup] at hnodes hlinks
  exact ⟨nodes, links, hnodes, hlinks, hg⟩

/-- A graph contains the identities of its nodes. -/
theorem contains_iff_mem {g : Graph} {id : Identity} :
    g.contains id = true ↔ id ∈ g.nodes.map (·.id) := by
  unfold contains
  rw [index?_eq_placeOf, Option.isSome_iff_ne_none, ne_eq, placeOf_eq_none_iff, not_not]

/-- Linked nodes that can be put in order form the graph of the unrolled model. -/
theorem exists_ofUnrolled {β : Type} {u : Unrolled β} {r : Registry α} {nodes : List Node}
    {links : Links} (hnodup : (u.definitions.map (·.target)).Nodup)
    (hnodes : u.definitions.mapM (nodeOf r u.data) = .ok nodes)
    (hlinks : u.definitions.foldlM (Links.add u.data) ⟨u.definitions.map (·.target), [], []⟩ =
      .ok links)
    (horder : ∃ order, ParentLists.IsOrder
      ((List.zipWith (fun (n : Node) ps => { n with parents := ps }) nodes links.parents ++
        links.leaves).map fun n : Node => n.parents) order) : ∃ g, ofUnrolled u r = .ok g := by
  obtain ⟨order, hsome⟩ := Option.isSome_iff_exists.mp
    (ParentLists.order?_isSome_iff.mpr horder)
  unfold ofUnrolled
  dsimp only
  rw [firstDefinitions_of_nodup hnodup, hnodes, ok_bind, hlinks, ok_bind]
  unfold assemble
  dsimp only
  rw [hsome]
  exact ⟨_, rfl⟩

/-- Definitions in another order give the same graph up to the numbers of the nodes. -/
theorem ofUnrolled_rearranged {β : Type} {u u' : Unrolled β} (hu : u.Rearranged u')
    (hnodup : (u.definitions.map (·.target)).Nodup) {r : Registry α} {g : Graph}
    (h : ofUnrolled u r = .ok g) : ∃ g', ofUnrolled u' r = .ok g' ∧ g.Renumbered g' := by
  obtain ⟨-, -, -, -, -, horder, -⟩ := ofUnrolled_eq_ok h
  have hlinked := isLinked_of_ofUnrolled hnodup h
  have hnodup' : (u'.definitions.map (·.target)).Nodup :=
    (hu.definitions.map _).nodup_iff.mp hnodup
  obtain ⟨bare, links, hbare, hlinks, hnodes⟩ := id hlinked
  obtain ⟨bare', hbare', -⟩ := mapM_perm hu.definitions hbare
  -- What the first graph links to is a target or has data, which does not depend on the order of
  -- the definitions.
  have hrefs : ∀ d ∈ u'.definitions, ∀ ref ∈ d.usedRefs u'.data,
      ref ∈ u'.definitions.map (·.target) ∨ (u'.data.values.get? ref).isSome := by
    intro d hd ref href
    rw [← hu.data] at href ⊢
    obtain ⟨is, -, his⟩ := exists_of_forall₂ hlinks.parents (hu.definitions.mem_iff.mpr hd)
    have hplace : placeOf links.ids ref ∈ is.map some := his ▸ List.mem_map_of_mem href
    obtain ⟨i, -, hi⟩ := List.mem_map.mp hplace
    have hmem := List.mem_of_getElem? ((placeOf_eq_some_iff hlinks.nodup).mp hi.symm)
    rw [hlinks.ids, List.mem_append] at hmem
    rcases hmem with hmem | hmem
    · exact Or.inl ((hu.definitions.map _).mem_iff.mp hmem)
    · obtain ⟨n, hn, rfl⟩ := List.mem_map.mp hmem
      obtain ⟨v, hv, -⟩ := hlinks.from_data n hn
      exact Or.inr (hv ▸ rfl)
  obtain ⟨links', hlinks'⟩ : ∃ links', u'.definitions.foldlM (Links.add u'.data)
      ⟨u'.definitions.map (·.target), [], []⟩ = .ok links' := Links.exists_foldlM hrefs
  have hbare'' : u'.definitions.mapM (nodeOf r u'.data) = .ok bare' := hu.data ▸ hbare'
  have hsound := Links.sound_of_foldlM (Links.sound_start hnodup') hlinks'
  rw [List.nil_append] at hsound
  have hlinked' : IsLinked r u'.data u'.definitions _ := ⟨bare', links', hbare'', hsound, rfl⟩
  rw [hu.data] at hlinked
  have hisOrder := ParentLists.isOrder_of_order? horder
  obtain ⟨g', hg'⟩ := exists_ofUnrolled hnodup' hbare'' hlinks'
    (exists_isOrder_of_portraits hisOrder hlinked.nodup
      (fun n hn j hj => hlinked'.exists_parent hn hj)
      fun n hn => hlinked'.exists_portrait hlinked hu.definitions.symm hn)
  have hfinal := isLinked_of_ofUnrolled hnodup' hg'
  exact ⟨g', hg', perm_portraits hlinked.nodup hfinal.nodup
    (fun n hn => hlinked.exists_portrait hfinal hu.definitions hn)
    fun n hn => hfinal.exists_portrait hlinked hu.definitions.symm hn⟩

/-! ## Evaluations of renumbered graphs -/

variable [Scalar α] {g g' : Graph}

omit [Scalar α] in
/-- Renumbering a graph can be undone. -/
theorem Renumbered.symm (h : g.Renumbered g') : g'.Renumbered g := List.Perm.symm h

omit [Scalar α] in
/-- Renumbered graphs have the same identities. -/
theorem Renumbered.map_id (h : g.Renumbered g') :
    (g.nodes.map (·.id)).Perm (g'.nodes.map (·.id)) := by
  have hmap := h.map Portrait.id
  rw [List.map_map, List.map_map] at hmap
  exact hmap

omit [Scalar α] in
/-- The node of an identity has the same role in renumbered graphs. -/
theorem Renumbered.role_eq (h : g.Renumbered g') (hg : g.WellFormed) {n n' : Node}
    (hn : n ∈ g.nodes) (hn' : n' ∈ g'.nodes) (hid : n.id = n'.id) : n.role = n'.role := by
  obtain ⟨n₀, hn₀, hsame⟩ := List.mem_map.mp (h.symm.subset (List.mem_map_of_mem hn'))
  unfold portrait at hsame
  rw [Portrait.mk.injEq] at hsame
  obtain ⟨hid₀, hrole, -⟩ := hsame
  rw [List.inj_on_of_nodup_map hg.nodup hn hn₀ (hid.trans hid₀.symm)]
  exact hrole

omit [Scalar α] in
/-- The identities of all nodes in some order are those of all nodes. -/
theorem identities_range (g : Graph) :
    g.identities (List.range g.size) = g.nodes.map (·.id) := by
  unfold identities size
  induction g.nodes using List.reverseRecOn with
  | nil => rfl
  | append_singleton ns n ih =>
    rw [List.length_append, List.length_singleton, List.range_succ, List.filterMap_append,
      List.map_append, ← ih]
    congr 1
    · refine List.filterMap_congr fun i hi => ?_
      rw [List.getElem?_append_left (List.mem_range.mp hi)]
    · simp

omit [Scalar α] in
/-- The order of a well-formed graph lists all identities. -/
theorem WellFormed.identities_perm (hg : g.WellFormed) :
    (g.identities g.order).Perm (g.nodes.map (·.id)) := by
  have hperm := hg.order.perm
  unfold parentLists at hperm
  rw [List.length_map] at hperm
  exact identities_range g ▸ hperm.filterMap _

/-- What an identity contributes to an evaluation with the values `V`. -/
def ContributesAs (g : Graph) (r : Registry α) (mode : EvaluationMode)
    (coordinate : Identity → Option α) (V : Valuation α) (id : Identity) (c : Contribution α) :
    Prop :=
  ∃ n ∈ g.nodes, n.id = id ∧ V id = some c.value ∧
    contribution r mode (V.environment r mode.calls) (coordinate id) n = .ok c

/-- The contributions along an order are those of the identities in this order. -/
theorem forall₂_contributesAs_iff (hg : g.WellFormed) {r : Registry α} {mode : EvaluationMode}
    {theta : List α} {slots : Slots α} {is : List Nat} {cs : List (Contribution α)}
    (his : ∀ i ∈ is, i < g.size) :
    List.Forall₂ (g.Contributes r mode theta slots) is cs ↔
      List.Forall₂ (g.ContributesAs r mode (g.coordinateOf theta) (g.valuation slots))
        (g.identities is) cs := by
  induction is generalizing cs with
  | nil => cases cs <;> simp [identities]
  | cons i is ih =>
    obtain ⟨node, hn⟩ : ∃ node, g.nodes[i]? = some node :=
      ⟨_, List.getElem?_eq_getElem (his i List.mem_cons_self)⟩
    have hmem := List.mem_of_getElem? hn
    obtain ⟨hcoordinate, hvalue⟩ := hg.at_node theta slots hn
    have hsplit : g.identities (i :: is) = node.id :: g.identities is := by
      unfold identities
      rw [List.filterMap_cons, hn]
      rfl
    rw [hsplit]
    cases cs with
    | nil => simp
    | cons c cs =>
      rw [List.forall₂_cons, List.forall₂_cons, ih fun j hj => his j (List.mem_cons_of_mem i hj)]
      refine and_congr_left fun _ => ?_
      unfold Contributes ContributesAs
      rw [hcoordinate, hvalue, hn]
      constructor
      · rintro ⟨n, hsome, hslot, hc⟩
        cases hsome
        exact ⟨_, hmem, rfl, hslot, hc⟩
      · rintro ⟨n, hn', hid, hslot, hc⟩
        obtain rfl := List.inj_on_of_nodup_map hg.nodup hn' hmem hid
        exact ⟨_, rfl, hslot, hc⟩

/-- A contribution depends on the identity and the role of a node only. -/
theorem contribution_of_role {r : Registry α} {mode : EvaluationMode} {env : Environment α}
    {coordinate : Option α} {n n' : Node} (hid : n.id = n'.id) (hrole : n.role = n'.role) :
    contribution r mode env coordinate n = contribution r mode env coordinate n' := by
  unfold contribution
  rw [hid, hrole]

omit [Scalar α] in
/-- The values of one graph in the slots of another one. -/
theorem valuation_slots (hg' : g'.WellFormed) {V : Valuation α}
    (hV : ∀ id, g'.contains id = false → V id = none) :
    g'.valuation (fun i => (g'.nodes[i]?).bind fun n => V n.id) = V := by
  funext id
  unfold valuation
  cases hindex : g'.index? id with
  | none => exact (hV id (by simp [contains, hindex])).symm
  | some i =>
    obtain ⟨n, hn, rfl⟩ := hg'.getElem?_of_index? hindex
    simp [hn]

/-- In exact arithmetic, an evaluation of a graph is one of every renumbered graph, if each
parameter keeps its coordinate: with the same values and the same sums. -/
theorem evaluate_renumbered [ExactScalar α] (hg : g.WellFormed) (hg' : g'.WellFormed)
    (h : g.Renumbered g') {r : Registry α} {mode : EvaluationMode} {theta theta' : List α}
    (htheta : ∀ id, g'.coordinateOf theta' id = g.coordinateOf theta id) {ev : Evaluation α}
    (hev : g.evaluate r mode theta = .ok ev) :
    ∃ ev', g'.evaluate r mode theta' = .ok ev' ∧ g'.valuation ev'.slots = g.valuation ev.slots ∧
      ev'.logPrior = ev.logPrior ∧ ev'.logLikelihood = ev.logLikelihood ∧
      ev'.logJacobian = ev.logJacobian := by
  obtain ⟨cs, hcs, -, hsum⟩ := (evaluate_eq_ok_iff hg).mp hev
  have hdensity := isDensity_of_contributes hg hcs
  rw [forall₂_contributesAs_iff hg hg.lt_size] at hcs
  have hids : (g'.identities g'.order).Perm (g.identities g.order) :=
    hg'.identities_perm.trans (h.map_id.symm.trans hg.identities_perm.symm)
  obtain ⟨cs', hcs', hperm⟩ := List.perm_comp_forall₂ hids hcs
  -- The slots of the other graph hold the same valuation, each at the place its name has there.
  let slots : Slots α := fun i => (g'.nodes[i]?).bind fun n => g.valuation ev.slots n.id
  have hvaluation : g'.valuation slots = g.valuation ev.slots := by
    refine valuation_slots hg' fun id hid => valuation_outside ?_
    rw [← Bool.not_eq_true, contains_iff_mem] at hid ⊢
    exact fun hmem => hid (h.map_id.mem_iff.mp hmem)
  have hcontributes : List.Forall₂ (g'.Contributes r mode theta' slots) g'.order cs' := by
    rw [forall₂_contributesAs_iff hg' hg'.lt_size, hvaluation]
    refine hcs'.imp ?_
    rintro id c ⟨n, hn, hid, hvalue, hc⟩
    obtain ⟨n', hn', hid'⟩ := List.mem_map.mp (h.map_id.subset (List.mem_map_of_mem hn))
    refine ⟨n', hn', hid'.trans hid, hvalue, ?_⟩
    rw [htheta, contribution_of_role hid' (h.role_eq hg hn hn' hid'.symm).symm]
    exact hc
  have hsum' := hsum.perm hperm.symm hdensity
  refine ⟨{ ev with slots := slots, parameters := cs'.flatMap (·.parameters) },
    (evaluate_eq_ok_iff hg').mpr ⟨cs', hcontributes, fun i hi => ?_, ?_⟩, hvaluation, rfl, rfl, rfl⟩
  · have hout : g'.nodes.length ≤ i := by
      by_contra hlt
      exact hi (hg'.mem_order (List.getElem?_eq_getElem (Nat.lt_of_not_le hlt)))
    simp [slots, List.getElem?_eq_none hout]
  · exact ⟨hsum'.parameters, hsum'.prior, hsum'.likelihood, hsum'.jacobian⟩

/-- The result of a density: the sum of an evaluation, or nothing at all in place of an arithmetic
error. -/
theorem logDensity_result {r : Registry α} {transformed : Bool} {calls : CallMode}
    {theta : List α} :
    (g.logDensity r transformed calls theta).collect.1 =
      match (do (← g.evaluate r { transformed, calls } theta).logDensity) with
      | .ok v => (do return replaceNaN (← v.toTensor))
      | .error e => if e.isArithmetic then .ok (.scalar Scalar.bottom) else .error (.eval e) := by
  unfold logDensity
  dsimp only
  cases (do (← g.evaluate r { transformed, calls } theta).logDensity : Except EvalError _) with
  | ok v =>
    dsimp only
    cases v.toTensor <;> rfl
  | error e =>
    dsimp only
    split <;> rfl

/-- In exact arithmetic, renumbered graphs have the same density, as long as nothing but domain
errors are raised. -/
theorem logDensity_renumbered [ExactScalar α] (hg : g.WellFormed) (hg' : g'.WellFormed)
    (h : g.Renumbered g') {r : Registry α} {transformed : Bool} {calls : CallMode}
    {theta theta' : List α}
    (htheta : ∀ id, g'.coordinateOf theta' id = g.coordinateOf theta id) {x : Tensor α}
    (hx : (g.logDensity r transformed calls theta).collect.1 = .ok x)
    (hdomain : ∀ e, g'.evaluate r { transformed, calls } theta' = .error e →
      e.isArithmetic = true) :
    (g'.logDensity r transformed calls theta').collect.1 = .ok x := by
  rw [logDensity_result] at hx ⊢
  cases hev : g.evaluate r { transformed, calls } theta with
  | ok ev =>
    obtain ⟨ev', hev', -, hprior, hlikelihood, hjacobian⟩ :=
      evaluate_renumbered hg hg' h htheta hev
    rw [hev, ok_bind] at hx
    rw [hev', ok_bind]
    unfold Evaluation.logDensity at hx ⊢
    rw [hprior, hlikelihood, hjacobian]
    exact hx
  | error e =>
    cases hev' : g'.evaluate r { transformed, calls } theta' with
    | ok ev' =>
      obtain ⟨ev, hok, -⟩ := evaluate_renumbered hg' hg h.symm (fun id => (htheta id).symm) hev'
      rw [hev] at hok
      cases hok
    | error e' =>
      rw [hev, error_bind] at hx
      dsimp only at hx
      split at hx
      · rw [error_bind]
        dsimp only
        rw [if_pos (hdomain e' hev')]
        exact hx
      · cases hx

end Graph

end BayesGraph
