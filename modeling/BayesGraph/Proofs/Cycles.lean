import Mathlib.Data.List.Chain
import Mathlib.Data.List.Nodup
import Mathlib.Data.List.Perm.Subperm
import Mathlib.Logic.Relation
import BayesGraph.Proofs.Outcome
import BayesGraph.Proofs.Topology

/-!
# Cycles

A graph has an order unless it has a cycle, and then `findCycle` finds one. The search goes down
from node to node along a trail without repetitions. An edge back to the trail closes a cycle. A
node that is left without a cycle is behind all its children in the order of completion, so that the
nodes in the reverse of this order, if all of them are left in the end, are an order of the graph.
-/

set_option autoImplicit false

namespace BayesGraph

/-- A closed walk without any other repetition: the first member is the last one as well. -/
structure IsCycle {β : Type} (rel : β → β → Prop) (c : List β) : Prop where
  long : 2 ≤ c.length
  closed : c.head? = c.getLast?
  nodup : c.tail.Nodup
  chain : List.IsChain rel c

namespace IsCycle

variable {β γ : Type} {rel : β → β → Prop} {rel' : γ → γ → Prop} {c : List β}

/-- A cycle has a first and a second member, and the last one is the first. -/
theorem exists_cons (h : IsCycle rel c) :
    ∃ x y rest, c = x :: y :: rest ∧ rel x y ∧ List.IsChain rel (y :: rest) ∧
      (y :: rest).getLast? = some x := by
  obtain ⟨hlong, hclosed, -, hchain⟩ := h
  match c with
  | x :: y :: rest =>
    obtain ⟨hxy, hrest⟩ := List.isChain_cons_cons.mp hchain
    exact ⟨x, y, rest, rfl, hxy, hrest, by simpa using hclosed.symm⟩

/-- Along a cycle, a member comes back to itself. -/
theorem transGen (h : IsCycle rel c) : ∃ x, Relation.TransGen rel x x := by
  obtain ⟨x, y, rest, -, hxy, hrest, hlast⟩ := h.exists_cons
  have hreach : Relation.ReflTransGen rel y x := by
    refine List.relationReflTransGen_of_exists_isChain_cons rest hrest ?_
    rw [List.getLast?_eq_some_getLast (List.cons_ne_nil y rest), Option.some.injEq] at hlast
    exact hlast
  exact ⟨x, Relation.TransGen.head' hxy hreach⟩

/-- Every member of a cycle comes after another one. -/
theorem exists_rel (h : IsCycle rel c) {y : β} (hy : y ∈ c) : ∃ x ∈ c, rel x y := by
  obtain ⟨x, z, rest, rfl, -, -, hlast⟩ := h.exists_cons
  refine Outcome.exists_rel_of_isChain h.chain ?_
  rcases List.mem_cons.mp hy with rfl | hy
  · exact List.mem_of_getLast? hlast
  · exact hy

/-- A map that is injective and respects the relations carries a cycle over. -/
theorem map (h : IsCycle rel c) {f : β → γ} (hinj : ∀ x ∈ c, ∀ y ∈ c, f x = f y → x = y)
    (hrel : ∀ x ∈ c, ∀ y ∈ c, rel x y → rel' (f x) (f y)) : IsCycle rel' (c.map f) := by
  refine ⟨by simpa using h.long, ?_, ?_, ?_⟩
  · rw [List.head?_map, List.getLast?_map, h.closed]
  · rw [← List.map_tail]
    refine List.Nodup.map_on (fun x hx y hy => ?_) h.nodup
    exact hinj x (List.mem_of_mem_tail hx) y (List.mem_of_mem_tail hy)
  · rw [List.isChain_map]
    exact List.IsChain.imp_of_mem_imp (fun x y hx hy => hrel x hx y hy) h.chain

end IsCycle

namespace ParentLists

variable {g : ParentLists}

/-- The edge from a parent to a child. -/
def Edge (g : ParentLists) (i j : Nat) : Prop := i ∈ g.parents j

/-- An edge leads to a node. -/
theorem lt_of_edge {i j : Nat} (h : g.Edge i j) : j < g.length := by
  by_contra hlt
  unfold Edge parents at h
  rw [List.getD_eq_getElem?_getD, List.getElem?_eq_none (Nat.le_of_not_lt hlt)] at h
  simp at h

/-- In a graph with an order there is no way back along edges. -/
theorem IsOrder.acyclic {order : List Nat} (h : g.IsOrder order) (i : Nat) :
    ¬ Relation.TransGen g.Edge i i := by
  have hlt : ∀ i j, Relation.TransGen g.Edge i j → order.idxOf i < order.idxOf j := by
    intro i j hij
    induction hij with
    | single hedge => exact (h.idxOf_lt (lt_of_edge hedge) hedge).2
    | tail _ hedge ih => exact ih.trans (h.idxOf_lt (lt_of_edge hedge) hedge).2
  exact fun hcycle => Nat.lt_irrefl _ (hlt i i hcycle)

/-! ## The trail of the search -/

/-- A way down the graph without repetitions, the last node first. -/
structure Trail (g : ParentLists) (trail : List Nat) : Prop where
  nodup : trail.Nodup
  lt : ∀ i ∈ trail, i < g.length
  chain : List.IsChain (fun j i => g.Edge i j) trail

/-- One more node at the end of a trail. -/
theorem Trail.cons {path : List Nat} {i : Nat} (h : g.Trail path) (hi : i < g.length)
    (hnew : i ∉ path) (hedge : ∀ k ∈ path.head?, g.Edge k i) : g.Trail (i :: path) := by
  refine ⟨List.nodup_cons.mpr ⟨hnew, h.nodup⟩, ?_, List.isChain_cons.mpr ⟨hedge, h.chain⟩⟩
  exact List.forall_mem_cons.mpr ⟨hi, h.lt⟩

/-- A trail is no longer than the graph is large. -/
theorem Trail.length_le {trail : List Nat} (h : g.Trail trail) : trail.length ≤ g.length := by
  have hsub : trail ⊆ List.range g.length := fun i hi => List.mem_range.mpr (h.lt i hi)
  simpa using (List.subperm_of_subset h.nodup hsub).length_le

/-- An edge from the end of a trail back to the trail closes a cycle. -/
theorem Trail.isCycle {i j : Nat} {path : List Nat} (h : g.Trail (i :: path)) (hedge : g.Edge i j)
    (hj : j ∈ i :: path) :
    IsCycle g.Edge ((((i :: path).takeWhile (· ≠ j)) ++ [j]).reverse ++ [j]) := by
  obtain ⟨before, after, hsplit, hnew⟩ := List.eq_append_cons_of_mem hj
  have hbefore : (i :: path).takeWhile (· ≠ j) = before := by
    have hall : ∀ k ∈ before, decide (k ≠ j) = true := fun k hk =>
      decide_eq_true fun heq => hnew (heq ▸ hk)
    rw [hsplit, List.takeWhile_append_of_pos hall, List.takeWhile_cons_of_neg (by simp),
      List.append_nil]
  have hprefix : (before ++ [j]) <+: i :: path := by
    rw [hsplit]
    exact ⟨after, by simp⟩
  have hhead : (before ++ [j]).head? = some i := by
    cases before with
    | nil =>
      rw [List.nil_append, List.cons.injEq] at hsplit
      simp [hsplit.1]
    | cons k before =>
      rw [List.cons_append, List.cons.injEq] at hsplit
      simp [hsplit.1]
  rw [hbefore]
  refine ⟨by simp, by rw [List.getLast?_concat]; simp, ?_, ?_⟩
  · have hnodup : (before ++ [j]).Nodup := h.nodup.sublist hprefix.sublist
    rw [List.reverse_append, List.reverse_singleton, List.singleton_append, List.cons_append,
      List.tail_cons]
    exact ((List.reverse_perm before).append_right [j]).nodup_iff.mpr hnodup
  · refine List.isChain_append.mpr ⟨?_, List.isChain_singleton j, ?_⟩
    · rw [List.isChain_reverse]
      exact h.chain.prefix hprefix
    · intro k hk l hl
      rw [List.getLast?_reverse, hhead, Option.mem_some_iff] at hk
      rw [List.head?_singleton, Option.mem_some_iff] at hl
      subst hk hl
      exact hedge

/-! ## Nodes that are left -/

/-- Nodes that were left without a cycle, the last one first: each of them after all its
children. -/
def Finished (g : ParentLists) : List Nat → Prop
  | [] => True
  | i :: rest => i < g.length ∧ i ∉ rest ∧ (∀ j, g.Edge i j → j ∈ rest) ∧ Finished g rest

namespace Finished

variable {explored : List Nat}

/-- Finished nodes are listed once. -/
theorem nodup (h : g.Finished explored) : explored.Nodup := by
  induction explored with
  | nil => exact List.nodup_nil
  | cons i rest ih => exact List.nodup_cons.mpr ⟨h.2.1, ih h.2.2.2⟩

/-- Finished nodes are nodes of the graph. -/
theorem lt (h : g.Finished explored) : ∀ i ∈ explored, i < g.length := by
  induction explored with
  | nil => simp
  | cons i rest ih => exact List.forall_mem_cons.mpr ⟨h.1, ih h.2.2.2⟩

/-- All children of a finished node are finished. -/
theorem closed (h : g.Finished explored) {i j : Nat} (hi : i ∈ explored) (hedge : g.Edge i j) :
    j ∈ explored := by
  induction explored with
  | nil => simp at hi
  | cons k rest ih =>
    rcases List.mem_cons.mp hi with rfl | hi
    · exact List.mem_cons_of_mem i (h.2.2.1 j hedge)
    · exact List.mem_cons_of_mem k (ih h.2.2.2 hi)

/-- If the parents of all finished nodes have been placed before or are finished, the finished nodes
can be placed in their order. -/
theorem parentsFirst (h : g.Finished explored) {placed : List Nat}
    (hparents : ∀ i j, j ∈ explored → g.Edge i j → i ∈ placed ∨ i ∈ explored) :
    g.ParentsFirst placed explored := by
  induction explored generalizing placed with
  | nil => trivial
  | cons k rest ih =>
    obtain ⟨-, hnew, hchildren, hrest⟩ := id h
    refine ⟨fun i hi => ?_, ih hrest fun i j hj hedge => ?_⟩
    · -- a parent behind `k` would have `k` among the nodes behind it
      rcases hparents i k List.mem_cons_self hi with hplaced | hi'
      · exact hplaced
      · rcases List.mem_cons.mp hi' with rfl | hi'
        · exact absurd (hchildren i hi) hnew
        · exact absurd (hrest.closed hi' hi) hnew
    · rcases hparents i j (List.mem_cons_of_mem k hj) hedge with hplaced | hi
      · exact Or.inl (List.mem_append_left [k] hplaced)
      · rcases List.mem_cons.mp hi with rfl | hi
        · exact Or.inl (by simp)
        · exact Or.inr hi

/-- If all nodes are finished and all parents are nodes, the finished nodes are an order. -/
theorem isOrder (h : g.Finished explored) (hall : ∀ i < g.length, i ∈ explored)
    (hrange : ∀ i j, g.Edge i j → i < g.length) : g.IsOrder explored := by
  constructor
  · rw [List.perm_ext_iff_of_nodup h.nodup List.nodup_range]
    intro i
    rw [List.mem_range]
    exact ⟨h.lt i, hall i⟩
  · exact h.parentsFirst fun i j _ hedge => Or.inr (hall i (hrange i j hedge))

end Finished

/-! ## The search -/

namespace Search

/-- What holds of the nodes that are left, or of the cycle that was found. -/
def Satisfies (s : Search) (left found : List Nat → Prop) : Prop :=
  match s with
  | .clear explored => left explored
  | .found c => found c

/-- A search through a list of nodes satisfies what every step keeps; a cycle that was found is
kept. -/
theorem foldl_satisfies {visit : Search → Nat → Search} (left : List Nat → List Nat → Prop)
    {found : List Nat → Prop} {explored : List Nat} {js : List Nat}
    (hkept : ∀ c j, visit (.found c) j = .found c) (hstart : left [] explored)
    (hvisit : ∀ before j after e, js = before ++ j :: after → left before e →
      (visit (.clear e) j).Satisfies (left (before ++ [j])) found) :
    (js.foldl visit (.clear explored)).Satisfies (left js) found := by
  induction js using List.reverseRecOn with
  | nil => exact hstart
  | append_singleton js j ih =>
    have hbefore := ih fun before k after e hsplit =>
      hvisit before k (after ++ [j]) e (by simp [hsplit])
    rw [List.foldl_append, List.foldl_cons, List.foldl_nil]
    cases hs : js.foldl visit (.clear explored) with
    | clear e =>
      rw [hs] at hbefore
      exact hvisit js j [] e rfl hbefore
    | found c =>
      rw [hs] at hbefore
      rw [hkept]
      exact hbefore

end Search

/-- The search from one child, at the end of a trail. -/
def visitChild (g : ParentLists) (fuel : Nat) (trail : List Nat) (s : Search) (j : Nat) : Search :=
  match s with
  | .found c => .found c
  | .clear explored =>
    if trail.contains j then .found ((trail.takeWhile (· ≠ j) ++ [j]).reverse ++ [j])
    else if explored.contains j then .clear explored
    else g.search fuel trail explored j

/-- The search from a node goes through its children. -/
theorem search_succ (fuel : Nat) (path explored : List Nat) (i : Nat) :
    g.search (fuel + 1) path explored i =
      match (g.children i).foldl (g.visitChild fuel (i :: path)) (.clear explored) with
      | .found c => .found c
      | .clear e => .clear (i :: e) := rfl

/-- What the search from a node at the end of a trail has to achieve. -/
def Leaves (g : ParentLists) (path explored : List Nat) (i : Nat) (s : Search) : Prop :=
  s.Satisfies (fun e => g.Finished e ∧ explored ⊆ e ∧ i ∈ e ∧ ∀ k ∈ path, k ∉ e)
    (IsCycle g.Edge)

/-- A search from a node with enough fuel finds a cycle, or it leaves the node behind all its
children, without leaving any node of the trail. -/
theorem leaves_search {fuel i : Nat} {path explored : List Nat}
    (hfuel : g.length < fuel + path.length) (htrail : g.Trail (i :: path))
    (hexplored : g.Finished explored) (hnew : ∀ k ∈ i :: path, k ∉ explored) :
    g.Leaves path explored i (g.search fuel path explored i) := by
  -- A path has no node twice, so it runs out of nodes before the fuel is spent.
  induction fuel generalizing path explored i with
  | zero =>
    have hlength := htrail.length_le
    rw [List.length_cons] at hlength
    omega
  | succ fuel ih =>
    have hchildren : ((g.children i).foldl (g.visitChild fuel (i :: path))
        (.clear explored)).Satisfies
        (fun e => g.Finished e ∧ explored ⊆ e ∧ (∀ k ∈ i :: path, k ∉ e) ∧
          ∀ j ∈ g.children i, j ∈ e) (IsCycle g.Edge) := by
      -- Between two children the explored nodes are finished, have grown, are not on the path and
      -- contain the children already visited.
      refine Search.foldl_satisfies
        (fun before e => g.Finished e ∧ explored ⊆ e ∧ (∀ k ∈ i :: path, k ∉ e) ∧
          ∀ j ∈ before, j ∈ e)
        (fun _ _ => rfl) ⟨hexplored, List.Subset.refl _, hnew, by simp⟩ ?_
      rintro before j after e hsplit ⟨hfinished, hsub, hapart, hbefore⟩
      have hedge : g.Edge i j := mem_children_iff.mp (by rw [hsplit]; simp)
      have hlt : j < g.length := lt_of_edge hedge
      unfold visitChild
      dsimp only
      split
      · next hback =>
        exact htrail.isCycle hedge (List.contains_iff_mem.mp hback)
      · next hback =>
        rw [List.contains_iff_mem] at hback
        split
        · next hleft =>
          rw [List.contains_iff_mem] at hleft
          refine ⟨hfinished, hsub, hapart, ?_⟩
          exact List.forall_mem_append.mpr ⟨hbefore, by simpa using hleft⟩
        · next hleft =>
          rw [List.contains_iff_mem] at hleft
          have hdown := ih (by rw [List.length_cons]; omega)
            (htrail.cons hlt hback (by simpa using hedge)) hfinished
            (List.forall_mem_cons.mpr ⟨hleft, hapart⟩)
          unfold Leaves at hdown
          cases hs : g.search fuel (i :: path) e j with
          | found c => rwa [hs] at hdown
          | clear e' =>
            rw [hs] at hdown
            obtain ⟨hfinished', hsub', hj, hapart'⟩ := hdown
            refine ⟨hfinished', List.Subset.trans hsub hsub', hapart', ?_⟩
            exact List.forall_mem_append.mpr ⟨fun k hk => hsub' (hbefore k hk), by simpa using hj⟩
    rw [search_succ]
    cases hs : (g.children i).foldl (g.visitChild fuel (i :: path)) (.clear explored) with
    | found c => rwa [hs] at hchildren
    | clear e =>
      rw [hs] at hchildren
      obtain ⟨hfinished, hsub, hapart, hall⟩ := hchildren
      refine ⟨⟨htrail.lt i List.mem_cons_self, hapart i List.mem_cons_self, ?_, hfinished⟩,
        List.Subset.trans hsub (List.subset_cons_self i e), List.mem_cons_self, fun k hk => ?_⟩
      · exact fun j hedge => hall j (mem_children_iff.mpr hedge)
      · rw [List.mem_cons, not_or]
        refine ⟨?_, hapart k (List.mem_cons_of_mem i hk)⟩
        rintro rfl
        exact (List.nodup_cons.mp htrail.nodup).1 hk

/-- The search from one of all nodes, unless a cycle was found or the node is left already. -/
def visitRoot (g : ParentLists) (s : Search) (i : Nat) : Search :=
  match s with
  | .found c => .found c
  | .clear explored =>
    if explored.contains i then .clear explored else g.search (g.length + 1) [] explored i

/-- A cycle is searched for from every node in turn. -/
theorem findCycle_eq : g.findCycle =
    match (List.range g.length).foldl g.visitRoot (.clear []) with
    | .found c => some c
    | .clear _ => none := rfl

/-- What `findCycle` returns is a cycle, and if it returns none the graph has an order. -/
theorem findCycle_cases (hrange : ∀ i j, g.Edge i j → i < g.length) :
    (∃ c, g.findCycle = some c ∧ IsCycle g.Edge c) ∨ ∃ order, g.IsOrder order := by
  have hroots : ((List.range g.length).foldl g.visitRoot (.clear [])).Satisfies
      (fun e => g.Finished e ∧ ∀ i ∈ List.range g.length, i ∈ e) (IsCycle g.Edge) := by
    refine Search.foldl_satisfies (fun before e => g.Finished e ∧ ∀ i ∈ before, i ∈ e)
      (fun _ _ => rfl) ⟨trivial, by simp⟩ ?_
    rintro before i after e hsplit ⟨hfinished, hbefore⟩
    have hlt : i < g.length := List.mem_range.mp (by rw [hsplit]; simp)
    unfold visitRoot
    dsimp only
    split
    · next hleft =>
      rw [List.contains_iff_mem] at hleft
      refine ⟨hfinished, ?_⟩
      exact List.forall_mem_append.mpr ⟨hbefore, by simpa using hleft⟩
    · next hleft =>
      rw [List.contains_iff_mem] at hleft
      have htrail : g.Trail [i] := ⟨List.nodup_singleton i, by simpa using hlt, .singleton i⟩
      have hdown : g.Leaves [] e i (g.search (g.length + 1) [] e i) :=
        leaves_search (by simp) htrail hfinished (by simpa using hleft)
      unfold Leaves at hdown
      cases hs : g.search (g.length + 1) [] e i with
      | found c => rwa [hs] at hdown
      | clear e' =>
        rw [hs] at hdown
        obtain ⟨hfinished', hsub', hi, -⟩ := hdown
        refine ⟨hfinished', ?_⟩
        exact List.forall_mem_append.mpr ⟨fun k hk => hsub' (hbefore k hk), by simpa using hi⟩
  rw [findCycle_eq]
  cases hs : (List.range g.length).foldl g.visitRoot (.clear []) with
  | found c =>
    rw [hs] at hroots
    exact Or.inl ⟨c, rfl, hroots⟩
  | clear e =>
    rw [hs] at hroots
    refine Or.inr ⟨e, hroots.1.isOrder (fun i hi => ?_) hrange⟩
    exact hroots.2 i (List.mem_range.mpr hi)

/-- A graph has an order exactly if it has no cycle, and otherwise `findCycle` finds one. -/
theorem order?_eq_none_iff (hrange : ∀ i j, g.Edge i j → i < g.length) :
    g.order? = none ↔ ∃ c, g.findCycle = some c ∧ IsCycle g.Edge c := by
  constructor
  · intro hnone
    refine (findCycle_cases hrange).resolve_right fun horder => ?_
    have hsome := order?_isSome_iff.mpr horder
    rw [hnone] at hsome
    cases hsome
  · rintro ⟨c, -, hcycle⟩
    rw [← Option.not_isSome_iff_eq_none, order?_isSome_iff]
    rintro ⟨order, horder⟩
    obtain ⟨i, hi⟩ := hcycle.transGen
    exact horder.acyclic i hi

end ParentLists

end BayesGraph
