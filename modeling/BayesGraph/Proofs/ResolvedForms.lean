import BayesGraph.Proofs.ArithmeticErrors
import BayesGraph.Proofs.Build
import BayesGraph.Proofs.StatementOrder
import BayesGraph.Validation

/-!
# What resolution leaves

The expressions of a graph come from the statements of a model by resolution. If the model is valid,
no unresolved form and no literal but numbers is left in them, and each block of a slice is as large
as its shape asks for: it has one identity for each choice of one position per index, and indices
that are no slices leave no choice.
-/

set_option autoImplicit false

namespace BayesGraph

open Outcome

namespace Context

variable {α : Type} [Scalar α] {ctx : Context α} {site : Site}

/-- There are as many selections as ways to take a position from each index. -/
theorem length_selections (positions : List (List Int)) :
    (selections positions).length = (positions.map List.length).prod := by
  induction positions with
  | nil => rfl
  | cons ps rest ih => simp [selections, ih]

/-- An index that is no slice has one position. -/
theorem length_positionsOf {name : String} {indices : List Expr} {rank d : Nat}
    {positions : List (List Int)} (h : positionsOf ctx site name rank d indices = .ok positions) :
    List.Forall₂ (fun e ps => e.isSlice = false → ps.length = 1) indices positions := by
  induction indices generalizing d positions with
  | nil =>
    cases h
    exact .nil
  | cons e rest ih =>
    cases e with
    | colon =>
      simp only [positionsOf, bind_eq_ok, pure_eq_ok] at h
      obtain ⟨ps, -, others, hothers, rfl⟩ := h
      exact .cons (by simp [Expr.isSlice]) (ih hothers)
    | range a b =>
      simp only [positionsOf, bind_eq_ok, pure_eq_ok] at h
      obtain ⟨_, -, _, -, _, -, _, -, ps, -, others, hothers, rfl⟩ := h
      exact .cons (by simp [Expr.isSlice]) (ih hothers)
    | _ =>
      simp only [positionsOf, bind_eq_ok, pure_eq_ok] at h
      obtain ⟨_, -, i, -, others, hothers, rfl⟩ := h
      exact .cons (fun _ => rfl) (ih hothers)

/-- The block of a slice has as many identities as its shape asks for. -/
theorem volume_of_positions {indices : List Expr} {positions : List (List Int)}
    (h : List.Forall₂ (fun e ps => e.isSlice = false → ps.length = 1) indices positions) :
    Tensor.volume ((indices.zip positions).filterMap fun (e, ps) =>
      if e.isSlice then some ps.length else none) = (selections positions).length := by
  rw [length_selections]
  induction h with
  | nil => rfl
  | @cons e ps indices positions hlength _ ih =>
    rw [List.zip_cons_cons, List.filterMap_cons, List.map_cons, List.prod_cons, ← ih]
    by_cases hslice : e.isSlice = true
    · simp [hslice]
    · simp [hslice, hlength (Bool.eq_false_iff.mpr hslice)]

/-- A reference with one position for each single index is resolved. -/
theorem resolved_reference {name : String} {indices : List Expr} {positions : List (List Int)}
    (h : List.Forall₂ (fun e ps => e.isSlice = false → ps.length = 1) indices positions) :
    (reference name indices positions).Resolved := by
  unfold reference
  split
  · apply Expr.Resolved.refArray
    rw [volume_of_positions h, List.length_map]
  · exact .ref _

mutual

/-- What a checked expression is resolved to. -/
theorem resolved_of_resolve {s : Stmt} {inIndex : Bool} (e : Expr) {e' : Expr}
    (hcheck : e.check s inIndex = .ok ()) (h : resolve ctx site e = .ok e') : e'.Resolved := by
  match e with
  | .literal val =>
    cases h
    rw [Expr.check] at hcheck
    split at hcheck
    · next hnumber => exact .literal hnumber
    · cases hcheck
  | .var name =>
    rw [resolve] at h
    split at h
    · cases h
      exact .literal rfl
    · cases h
      exact .ref _
  | .index name indices =>
    rw [resolve] at h
    split at h
    · simp [Site.refuse_ne_ok] at h
    · simp only [bind_eq_ok, pure_eq_ok] at h
      obtain ⟨positions, hpositions, rfl⟩ := h
      exact resolved_reference (length_positionsOf hpositions)
  | .negate val =>
    simp only [resolve, bind_eq_ok, pure_eq_ok] at h
    obtain ⟨val', hval, rfl⟩ := h
    exact .negate (resolved_of_resolve val hcheck hval)
  | .add a b | .sub a b | .mul a b | .div a b | .pow a b =>
    simp only [resolve, bind_eq_ok, pure_eq_ok] at h
    simp only [Expr.check, bind_eq_ok] at hcheck
    obtain ⟨left, hleft, right, hright, rfl⟩ := h
    obtain ⟨⟨⟩, ha, hb⟩ := hcheck
    constructor
    · exact resolved_of_resolve a ha hleft
    · exact resolved_of_resolve b hb hright
  | .call func arguments =>
    simp only [resolve, bind_eq_ok, pure_eq_ok] at h
    obtain ⟨arguments', harguments, rfl⟩ := h
    cases func with
    | text t =>
      rw [Expr.check] at hcheck
      split at hcheck
      · cases hcheck
      · exact .call (resolved_of_resolveAll arguments hcheck harguments)
    | int _ | real _ | truth _ | nothing | list _ | record _ => cases hcheck
  | .colon | .range _ _ | .ref _ | .refArray _ _ | .raw _ | .rawList _ =>
    simp [resolve, Site.refuse_ne_ok] at h

/-- Checked expressions resolve to resolved ones. -/
theorem resolved_of_resolveAll {s : Stmt} {inIndex : Bool} (es : List Expr) {es' : List Expr}
    (hcheck : Expr.checkAll s inIndex es = .ok ()) (h : resolveAll ctx site es = .ok es') :
    ∀ e ∈ es', e.Resolved := by
  match es with
  | [] =>
    cases h
    simp
  | e :: rest =>
    simp only [resolveAll, bind_eq_ok, pure_eq_ok] at h
    simp only [Expr.checkAll, bind_eq_ok] at hcheck
    obtain ⟨first, hfirst, others, hothers, rfl⟩ := h
    obtain ⟨⟨⟩, he, hrest⟩ := hcheck
    exact List.forall_mem_cons.mpr
      ⟨resolved_of_resolve e he hfirst, resolved_of_resolveAll rest hrest hothers⟩

end

end Context

/-- The statement was checked, inside some loops. -/
def Stmt.Valid (s : Stmt) : Prop := ∃ loops, s.check loops = .ok ()

namespace Stmt

/-- The statements of a valid list are valid. -/
theorem valid_of_checkAll {ss : List Stmt} {loops : List Datum} (h : checkAll loops ss = .ok ()) :
    ∀ s ∈ ss, s.Valid := by
  induction ss with
  | nil => simp
  | cons s ss ih =>
    simp only [checkAll, bind_eq_ok] at h
    obtain ⟨⟨⟩, hs, hss⟩ := h
    exact List.forall_mem_cons.mpr ⟨⟨loops, hs⟩, ih hss⟩

/-- The body of a valid loop is valid. -/
theorem valid_of_inner {site t : Site} {lo hi : Int} (h : site.statement.Valid)
    (ht : t ∈ site.inner lo hi) : t.statement.Valid := by
  obtain ⟨loops, h⟩ := h
  obtain ⟨comment, var, sequence, body, s, i, hstatement, hs, rfl⟩ := Site.exists_of_mem_inner ht
  have hbody : checkAll (loops ++ [var]) body = .ok () := by
    simp only [hstatement, check] at h
    split at h
    · cases h
    · split at h
      · rw [bind_eq_ok] at h
        obtain ⟨⟨⟩, -, hbody⟩ := h
        exact hbody
      · cases h
  exact valid_of_checkAll hbody s hs

end Stmt

/-- If the statements are valid, so are the statements inside them. -/
theorem Site.Within.valid {ss : List Stmt} {site : Site} (h : site.Within ss)
    (hss : Stmt.checkAll [] ss = .ok ()) : site.statement.Valid := by
  induction h with
  | statement hs => exact Stmt.valid_of_checkAll hss _ hs
  | inner _ ht ih => exact Stmt.valid_of_inner ih ht

namespace Unrolled

variable {α : Type} [Scalar α]

/-- Two lists pass the check behind each other if both do. -/
theorem checkAll_append {s : Stmt} {inIndex : Bool} {es fs : List Expr} :
    Expr.checkAll s inIndex (es ++ fs) = .ok () ↔
      Expr.checkAll s inIndex es = .ok () ∧ Expr.checkAll s inIndex fs = .ok () := by
  induction es with
  | nil => simp [Expr.checkAll]
  | cons e es ih => simp [Expr.checkAll, ih, and_assoc]

/-- What a valid instance means has been resolved. -/
theorem resolved_of_resolveMeaning {ctx : Context α} {site : Site} {meaning : Meaning}
    (hvalid : site.statement.Valid) (h : resolveMeaning ctx site = .ok meaning) :
    ∀ e ∈ meaning.parts, e.Resolved := by
  obtain ⟨loops, hcheck⟩ := hvalid
  unfold resolveMeaning at h
  cases hstatement : site.statement with
  | sample comment lhs law =>
    rw [hstatement] at h hcheck
    cases law with
    | dist d =>
      simp only [bind_eq_ok, pure_eq_ok] at h
      simp only [Stmt.check, bind_eq_ok] at hcheck
      obtain ⟨d', hd', rfl⟩ := h
      obtain ⟨⟨⟩, -, hparts⟩ := hcheck
      exact Context.resolved_of_resolveAll d.parts hparts (Context.resolveAll_of_resolveDist hd')
    | raw object => simp at h
  | assign comment lhs rhs =>
    rw [hstatement] at h hcheck
    simp only [bind_eq_ok, pure_eq_ok] at h
    simp only [Stmt.check, bind_eq_ok] at hcheck
    obtain ⟨e', he', rfl⟩ := h
    obtain ⟨⟨⟩, -, hrhs⟩ := hcheck
    intro e he
    rw [Meaning.parts, List.mem_singleton] at he
    exact he ▸ Context.resolved_of_resolve rhs hrhs he'
  | loop _ _ _ _ | raw _ =>
    rw [hstatement] at h
    simp at h

/-- Only valid instances of a valid model are registered. -/
theorem valid_of_registering {m : Model} (hm : m.check = .ok ())
    {context : ShapeTable → Context α} {shapes : ShapeTable} {p : Progress}
    (h : Stmt.walkAll (registering context) [] ⟨shapes, []⟩ m.statements = .ok p) :
    ∀ t ∈ p.targets, t.1.statement.Valid := by
  intro t ht
  exact (registered_of_walk h t ht).1.valid hm

/-- All definitions of an unrolled valid model have been resolved. -/
theorem resolved_of_make {m : Model} {bindings : Table String Datum} {functions : FunctionTable α}
    {u : Unrolled α} (hm : m.check = .ok ()) (h : make m bindings functions = .ok u) :
    ∀ d ∈ u.definitions, ∀ e ∈ d.meaning.parts, e.Resolved := by
  obtain ⟨targets, -, -, hwalk, hdefinitions⟩ := make_eq_ok_iff.mp h
  intro d hd
  obtain ⟨t, ht, hdefine⟩ := exists_of_mem_mapM hdefinitions hd
  obtain ⟨-, hmeaning, -⟩ := define_eq_ok hdefine
  rw [Context.explain_eq_ok] at hmeaning
  exact resolved_of_resolveMeaning (valid_of_registering hm hwalk t (List.mem_reverse.mp ht))
    hmeaning

end Unrolled

namespace Graph

/-- A role has no other expressions than its definition. -/
theorem parts_roleIn_subset (data : Bindings) (d : Definition) :
    (roleIn data d).parts ⊆ d.meaning.parts := by
  unfold roleIn
  cases d.meaning with
  | dist law => cases data.values.get? d.target <;> exact List.Subset.refl _
  | expr e =>
    cases data.values.get? d.target with
    | none => exact List.Subset.refl _
    | some v => exact List.nil_subset _

/-- All expressions of the nodes of a graph that was built from a valid model have been resolved. -/
theorem resolved_of_build {α : Type} [Scalar α] {m : Model} {bindings : Table String Datum}
    {r : Registry α} {g : Graph} (hm : m.check = .ok ())
    (hg : (build m bindings r).collect.1 = .ok g) :
    ∀ n ∈ g.nodes, ∀ e ∈ n.role.parts, e.Resolved := by
  obtain ⟨u, hu, hofUnrolled⟩ := ofUnrolled_of_build hg
  intro n hn e he
  rcases definition_of_node hofUnrolled hn with ⟨d, hd, hrole⟩ | ⟨v, -, hrole⟩
  · rw [hrole] at he
    exact Unrolled.resolved_of_make hm hu d (List.mem_of_find?_eq_some hd) e
      (parts_roleIn_subset u.data d he)
  · rw [hrole] at he
    cases he

end Graph

end BayesGraph
