import Mathlib.Data.List.Perm.Basic
import Mathlib.Data.List.Range
import BayesGraph.Graph

/-!
# Orders of a graph

An order of a graph lists each node once and every node after its parents (`IsOrder`). The search
`order?` takes one ready node after another: what it returns is an order, and it returns one
whenever the graph has any order at all, because the first node of that order which is still to be
placed is ready. As the smallest ready node is taken, no other order is lexicographically smaller.
-/

set_option autoImplicit false

namespace BayesGraph.ParentLists

/-- Every node of the list comes after its parents, some nodes having been placed before. -/
def ParentsFirst (g : ParentLists) : (placed order : List Nat) → Prop
  | _, [] => True
  | placed, i :: rest => (∀ j ∈ g.parents i, j ∈ placed) ∧ ParentsFirst g (placed ++ [i]) rest

/-- A node in the middle comes after its parents. -/
theorem parents_of_parentsFirst {g : ParentLists} {placed before after : List Nat} {i : Nat}
    (h : g.ParentsFirst placed (before ++ i :: after)) :
    ∀ j ∈ g.parents i, j ∈ placed ++ before := by
  induction before generalizing placed with
  | nil => simpa using h.1
  | cons k before ih =>
    have hrest := ih h.2
    simpa using hrest

/-- Each node once, and every node after its parents. -/
structure IsOrder (g : ParentLists) (order : List Nat) : Prop where
  perm : order.Perm (List.range g.length)
  parents_first : g.ParentsFirst [] order

/-- An order has no repetitions. -/
theorem IsOrder.nodup {g : ParentLists} {order : List Nat} (h : g.IsOrder order) : order.Nodup :=
  h.perm.nodup_iff.mpr List.nodup_range

/-- An order contains the numbers of the nodes and no others. -/
theorem IsOrder.mem_iff {g : ParentLists} {order : List Nat} (h : g.IsOrder order) {i : Nat} :
    i ∈ order ↔ i < g.length := by
  rw [h.perm.mem_iff, List.mem_range]

/-- In an order, the place of a node is after the places of its parents. -/
theorem IsOrder.idxOf_lt {g : ParentLists} {order : List Nat} (h : g.IsOrder order) {i j : Nat}
    (hi : i < g.length) (hj : j ∈ g.parents i) : j < g.length ∧ order.idxOf j < order.idxOf i := by
  obtain ⟨before, after, rfl⟩ := List.append_of_mem (h.mem_iff.mpr hi)
  have hbefore : j ∈ before := by
    have hmem := parents_of_parentsFirst h.parents_first j hj
    rwa [List.nil_append] at hmem
  have hnew : i ∉ before := by
    intro hmem
    exact (List.nodup_append.mp h.nodup).2.2 i hmem i List.mem_cons_self rfl
  refine ⟨h.mem_iff.mp (List.mem_append_left _ hbefore), ?_⟩
  rw [List.idxOf_append_of_mem hbefore, List.idxOf_append_of_notMem hnew, List.idxOf_cons_self]
  exact List.idxOf_lt_length_of_mem hbefore

/-- A node that is ready is one of the remaining nodes, and its parents have been placed. -/
theorem ready?_eq_some {g : ParentLists} {placed remaining : List Nat} {i : Nat}
    (h : g.ready? placed remaining = some i) : i ∈ remaining ∧ ∀ j ∈ g.parents i, j ∈ placed := by
  unfold ready? at h
  have hready := List.find?_some h
  simp only [List.all_eq_true, List.contains_eq_mem, decide_eq_true_eq] at hready
  exact ⟨List.mem_of_find?_eq_some h, hready⟩

/-- What `place` returns continues the nodes placed before by the remaining ones, each of them
after its parents. -/
theorem place_eq_some {g : ParentLists} {fuel : Nat} {placed remaining order : List Nat}
    (h : g.place fuel placed remaining = some order) :
    ∃ rest, order = placed ++ rest ∧ rest.Perm remaining ∧ g.ParentsFirst placed rest := by
  induction fuel generalizing placed remaining with
  | zero =>
    unfold place at h
    split at h
    · next hempty =>
      rw [List.isEmpty_iff] at hempty
      cases h
      exact ⟨[], by simp, by rw [hempty], trivial⟩
    · cases h
  | succ fuel ih =>
    unfold place at h
    split at h
    · next hempty =>
      rw [List.isEmpty_iff] at hempty
      cases h
      exact ⟨[], by simp, by rw [hempty], trivial⟩
    · split at h
      · cases h
      · next i hi =>
        obtain ⟨hmem, hparents⟩ := ready?_eq_some hi
        obtain ⟨rest, horder, hperm, hfirst⟩ := ih h
        refine ⟨i :: rest, ?_, ?_, hparents, hfirst⟩
        · rw [horder, List.append_assoc, List.singleton_append]
        · exact (hperm.cons i).trans (List.perm_cons_erase hmem).symm

/-- What `order?` returns is an order. -/
theorem isOrder_of_order? {g : ParentLists} {order : List Nat} (h : g.order? = some order) :
    g.IsOrder order := by
  obtain ⟨rest, horder, hperm, hfirst⟩ := place_eq_some h
  rw [List.nil_append] at horder
  subst horder
  exact ⟨hperm, hfirst⟩

/-- Of the nodes of an order that are still to be placed, the first one is ready. -/
theorem exists_ready {g : ParentLists} {before order placed remaining : List Nat}
    (hfirst : g.ParentsFirst before order) (hbefore : ∀ i ∈ before, i ∈ placed)
    (horder : ∀ i ∈ order, i ∈ placed ∨ i ∈ remaining) (h : ∃ i ∈ order, i ∈ remaining) :
    ∃ i ∈ remaining, ∀ j ∈ g.parents i, j ∈ placed := by
  induction order generalizing before with
  | nil =>
    obtain ⟨i, hi, -⟩ := h
    simp at hi
  | cons i rest ih =>
    obtain ⟨hparents, hrest⟩ := hfirst
    by_cases hi : i ∈ remaining
    · exact ⟨i, hi, fun j hj => hbefore j (hparents j hj)⟩
    · have hplaced : i ∈ placed := (horder i List.mem_cons_self).resolve_right hi
      refine ih hrest ?_ (fun j hj => horder j (List.mem_cons_of_mem i hj)) ?_
      · intro j hj
        rcases List.mem_append.mp hj with hj | hj
        · exact hbefore j hj
        · rw [List.mem_singleton.mp hj]
          exact hplaced
      · obtain ⟨j, hj, hjr⟩ := h
        rcases List.mem_cons.mp hj with rfl | hj
        · exact absurd hjr hi
        · exact ⟨j, hj, hjr⟩

/-- Nodes can be placed to the end if the graph has an order. -/
theorem place_isSome {g : ParentLists} {order : List Nat} (h : g.IsOrder order) {fuel : Nat}
    {placed remaining : List Nat} (hall : (placed ++ remaining).Perm (List.range g.length))
    (hfuel : remaining.length ≤ fuel) : (g.place fuel placed remaining).isSome := by
  induction fuel generalizing placed remaining with
  | zero =>
    have hnil : remaining = [] := List.length_eq_zero_iff.mp (Nat.le_zero.mp hfuel)
    simp [place, hnil]
  | succ fuel ih =>
    unfold place
    split
    · rfl
    · next hempty =>
      -- An order of the whole graph exists, so some node that is left has all its parents placed;
      -- each turn places one, and the fuel counts the nodes that are left.
      have hready : ∃ i ∈ remaining, ∀ j ∈ g.parents i, j ∈ placed := by
        refine exists_ready h.parents_first (by simp) ?_ ?_
        · intro i hi
          rw [← List.mem_append, hall.mem_iff, List.mem_range]
          exact h.mem_iff.mp hi
        · obtain ⟨i, hi⟩ := List.exists_mem_of_ne_nil remaining fun hnil => hempty (by simp [hnil])
          have hlt : i ∈ List.range g.length := hall.mem_iff.mp (List.mem_append_right placed hi)
          exact ⟨i, h.mem_iff.mpr (List.mem_range.mp hlt), hi⟩
      split
      · next hnone =>
        obtain ⟨i, hi, hparents⟩ := hready
        have hnot := List.find?_eq_none.mp hnone i hi
        simp only [List.all_eq_true, List.contains_eq_mem, decide_eq_true_eq] at hnot
        exact absurd hparents hnot
      · next i hi =>
        have hmem := (ready?_eq_some hi).1
        refine ih ?_ ?_
        · rw [List.append_assoc, List.singleton_append]
          exact ((List.perm_cons_erase hmem).symm.append_left placed).trans hall
        · rw [List.length_erase_of_mem hmem]
          omega

/-- A graph has an order if and only if `order?` finds one. -/
theorem order?_isSome_iff {g : ParentLists} : g.order?.isSome ↔ ∃ order, g.IsOrder order := by
  constructor
  · intro h
    obtain ⟨order, horder⟩ := Option.isSome_iff_exists.mp h
    exact ⟨order, isOrder_of_order? horder⟩
  · rintro ⟨order, h⟩
    exact place_isSome h (by simp) (by simp)

/-! ## The least order -/

/-- The node that is ready is the first one of those whose parents are placed. -/
theorem ready?_le {g : ParentLists} {placed remaining : List Nat} {i j : Nat}
    (h : g.ready? placed remaining = some i) (hsorted : remaining.Pairwise (· < ·))
    (hj : j ∈ remaining) (hparents : ∀ k ∈ g.parents j, k ∈ placed) : i ≤ j := by
  unfold ready? at h
  obtain ⟨-, before, after, rfl, hbefore⟩ := List.find?_eq_some_iff_append.mp h
  rcases List.mem_append.mp hj with hj | hj
  · -- a node in front of the first ready one is not ready
    have hnot := hbefore j hj
    have hready : (g.parents j).all placed.contains = true := by simpa using hparents
    rw [hready] at hnot
    cases hnot
  · rcases List.mem_cons.mp hj with rfl | hj
    · exact le_rfl
    · have hafter := (List.pairwise_append.mp hsorted).2.1
      exact le_of_lt ((List.pairwise_cons.mp hafter).1 j hj)

/-- Of all ways to place the remaining nodes after their parents, `place` finds the smallest one.
The induction is on the number of nodes to be placed: the first node of the other way is ready, so
the one that is taken is no larger, and if it is the same the rest is smallest by induction. -/
theorem place_least {g : ParentLists} {fuel : Nat} {placed remaining order : List Nat}
    (h : g.place fuel placed remaining = some order) (hsorted : remaining.Pairwise (· < ·))
    {rest : List Nat} (hperm : rest.Perm remaining) (hfirst : g.ParentsFirst placed rest) :
    ∃ least, order = placed ++ least ∧ (least = rest ∨ List.Lex (· < ·) least rest) := by
  induction fuel generalizing placed remaining rest with
  | zero =>
    unfold place at h
    split at h
    · next hempty =>
      rw [List.isEmpty_iff] at hempty
      cases h
      rw [hempty, List.perm_nil] at hperm
      exact ⟨[], by simp, Or.inl hperm.symm⟩
    · cases h
  | succ fuel ih =>
    unfold place at h
    split at h
    · next hempty =>
      rw [List.isEmpty_iff] at hempty
      cases h
      rw [hempty, List.perm_nil] at hperm
      exact ⟨[], by simp, Or.inl hperm.symm⟩
    · next hempty =>
      split at h
      · cases h
      · next i hi =>
        have hmem := (ready?_eq_some hi).1
        cases rest with
        | nil =>
          rw [List.nil_perm] at hperm
          simp [hperm] at hempty
        | cons j rest =>
          obtain ⟨hparents, hrest⟩ := hfirst
          have hle : i ≤ j := ready?_le hi hsorted (hperm.subset List.mem_cons_self) hparents
          -- The least ready node stands before the first of any other order, and there the two
          -- lists either differ for good or agree and the rest decides.
          rcases Nat.lt_or_eq_of_le hle with hlt | rfl
          · obtain ⟨least, horder, -, -⟩ := place_eq_some h
            exact ⟨i :: least, by simp [horder], Or.inr (.rel hlt)⟩
          · have htail : rest.Perm (remaining.erase i) := by
              simpa using hperm.erase i
            obtain ⟨least, horder, hleast⟩ :=
              ih h (hsorted.sublist List.erase_sublist) htail hrest
            refine ⟨i :: least, by simp [horder], ?_⟩
            rcases hleast with rfl | hless
            · exact Or.inl rfl
            · exact Or.inr (.cons hless)

/-- No order is lexicographically smaller than the one that `order?` returns. -/
theorem order?_least {g : ParentLists} {order other : List Nat} (h : g.order? = some order)
    (hother : g.IsOrder other) : order = other ∨ List.Lex (· < ·) order other := by
  obtain ⟨least, horder, hleast⟩ :=
    place_least h List.pairwise_lt_range hother.perm hother.parents_first
  rw [horder, List.nil_append]
  exact hleast

/-- The children of a node are the nodes of which it is a parent. -/
theorem mem_children_iff {g : ParentLists} {i j : Nat} :
    j ∈ g.children i ↔ i ∈ g.parents j := by
  unfold children parents
  simp only [List.mem_filter, List.mem_range, List.contains_iff_mem, and_iff_right_iff_imp]
  intro hi
  by_contra hlt
  rw [List.getD_eq_getElem?_getD, List.getElem?_eq_none (Nat.le_of_not_lt hlt)] at hi
  cases hi

end BayesGraph.ParentLists
