import BayesGraph.Proofs.Outcome
import BayesGraph.Eval
import BayesGraph.Variables

/-!
# References carry an expression

The value of a resolved expression depends on its references only: two lookups that answer alike
for the identities that `Expr.refs` lists give the same value or the same error. An expression
that has a value has a list of references, and each of them has been looked up with success. The
list leaves out no identity that stands somewhere in the expression (`Mentions.mem_refs`).
-/

set_option autoImplicit false

namespace BayesGraph.Expr

open Outcome

variable {α : Type} [Scalar α] {rules : Rules} {mode : CallMode} {functions : FunctionTable α}

mutual

/-- Lookups that answer alike for the references of an expression give the same result. -/
theorem eval_congr {l l' : Identity → Except EvalError (Value α)} (e : Expr) {ids : List Identity}
    (h : e.refs = .ok ids) (hl : ∀ id ∈ ids, l id = l' id) :
    e.eval ⟨rules, mode, functions, l⟩ = e.eval ⟨rules, mode, functions, l'⟩ := by
  match e with
  | .literal _ => rfl
  | .ref id =>
    cases h
    exact hl id List.mem_cons_self
  | .refArray refs shape =>
    cases h
    -- An array reads its block reference by reference, each made a tensor at once.
    have hblock : ∀ id ∈ ids, (do
        let v ← l id
        return Value.array rules (← v.toTensor)) = (do
        let v ← l' id
        return Value.array rules (← v.toTensor)) := by
      intro id hid
      rw [hl id hid]
    simp only [eval]
    rw [mapM_congr hblock]
  | .negate val =>
    rw [refs] at h
    simp only [eval, eval_congr val h hl]
  | .add a b | .sub a b | .mul a b | .div a b | .pow a b =>
    simp only [refs, bind_eq_ok, pure_eq_ok] at h
    obtain ⟨left, hleft, right, hright, rfl⟩ := h
    have ha := eval_congr a hleft fun id hid => hl id (List.mem_append_left right hid)
    have hb := eval_congr b hright fun id hid => hl id (List.mem_append_right left hid)
    simp only [eval, ha, hb]
  | .call func arguments =>
    rw [refs] at h
    simp only [eval, evalAll_congr arguments h hl]
    rfl
  | .var _ | .colon | .range _ _ | .index _ _ | .raw _ | .rawList _ => cases h

/-- Lookups that answer alike for the references of expressions give the same results. -/
theorem evalAll_congr {l l' : Identity → Except EvalError (Value α)} (es : List Expr)
    {ids : List Identity} (h : refsOfAll es = .ok ids) (hl : ∀ id ∈ ids, l id = l' id) :
    evalAll ⟨rules, mode, functions, l⟩ es = evalAll ⟨rules, mode, functions, l'⟩ es := by
  match es with
  | [] => rfl
  | e :: rest =>
    simp only [refsOfAll, bind_eq_ok, pure_eq_ok] at h
    obtain ⟨first, hfirst, others, hothers, rfl⟩ := h
    have he := eval_congr e hfirst fun id hid => hl id (List.mem_append_left others hid)
    have hrest := evalAll_congr rest hothers fun id hid => hl id (List.mem_append_right first hid)
    simp only [evalAll, he, hrest]

end

mutual

/-- An expression that has a value has references, and each of them is looked up with success. -/
theorem lookup_of_eval {l : Identity → Except EvalError (Value α)} (e : Expr) {v : Value α}
    (h : e.eval ⟨rules, mode, functions, l⟩ = .ok v) :
    ∃ ids, e.refs = .ok ids ∧ ∀ id ∈ ids, ∃ x, l id = .ok x := by
  match e with
  | .literal _ => exact ⟨[], rfl, by simp⟩
  | .ref id => exact ⟨[id], rfl, by simpa using ⟨v, h⟩⟩
  | .refArray ids shape =>
    simp only [eval, bind_eq_ok] at h
    obtain ⟨vs, hvs, -⟩ := h
    refine ⟨ids, rfl, fun id hid => ?_⟩
    obtain ⟨y, -, hy⟩ := exists_of_mapM hvs hid
    rw [bind_eq_ok] at hy
    obtain ⟨x, hx, -⟩ := hy
    exact ⟨x, hx⟩
  | .negate val =>
    simp only [eval, bind_eq_ok] at h
    obtain ⟨x, hx, -⟩ := h
    exact lookup_of_eval val hx
  | .add a b | .sub a b | .mul a b | .div a b | .pow a b =>
    simp only [eval, bind_eq_ok] at h
    obtain ⟨x, hx, y, hy, -⟩ := h
    obtain ⟨left, hleft, hl⟩ := lookup_of_eval a hx
    obtain ⟨right, hright, hr⟩ := lookup_of_eval b hy
    refine ⟨left ++ right, by simp [refs, hleft, hright], fun id hid => ?_⟩
    exact (List.mem_append.mp hid).elim (hl id) (hr id)
  | .call func arguments =>
    simp only [eval, bind_eq_ok] at h
    obtain ⟨xs, hxs, -⟩ := h
    exact lookup_of_evalAll arguments hxs
  | .var _ | .colon | .range _ _ | .index _ _ | .raw _ | .rawList _ => cases h

/-- Expressions that have values have references, and each of them is looked up with success. -/
theorem lookup_of_evalAll {l : Identity → Except EvalError (Value α)} (es : List Expr)
    {vs : List (Value α)} (h : evalAll ⟨rules, mode, functions, l⟩ es = .ok vs) :
    ∃ ids, refsOfAll es = .ok ids ∧ ∀ id ∈ ids, ∃ x, l id = .ok x := by
  match es with
  | [] => exact ⟨[], rfl, by simp⟩
  | e :: rest =>
    simp only [evalAll, bind_eq_ok] at h
    obtain ⟨x, hx, xs, hxs, -⟩ := h
    obtain ⟨first, hfirst, hf⟩ := lookup_of_eval e hx
    obtain ⟨others, hothers, ho⟩ := lookup_of_evalAll rest hxs
    refine ⟨first ++ others, by simp [refsOfAll, hfirst, hothers], fun id hid => ?_⟩
    exact (List.mem_append.mp hid).elim (hf id) (ho id)

end

/-! ## Occurrences -/

/-- The identity stands somewhere in the expression, as a reference of its own or in a block. -/
inductive Mentions (id : Identity) : Expr → Prop
  | ref : Mentions id (.ref id)
  | block {ids : List Identity} {shape : List Nat} : id ∈ ids → Mentions id (.refArray ids shape)
  | negate {e : Expr} : Mentions id e → Mentions id (.negate e)
  | addLeft {a b : Expr} : Mentions id a → Mentions id (.add a b)
  | addRight {a b : Expr} : Mentions id b → Mentions id (.add a b)
  | subLeft {a b : Expr} : Mentions id a → Mentions id (.sub a b)
  | subRight {a b : Expr} : Mentions id b → Mentions id (.sub a b)
  | mulLeft {a b : Expr} : Mentions id a → Mentions id (.mul a b)
  | mulRight {a b : Expr} : Mentions id b → Mentions id (.mul a b)
  | divLeft {a b : Expr} : Mentions id a → Mentions id (.div a b)
  | divRight {a b : Expr} : Mentions id b → Mentions id (.div a b)
  | powLeft {a b : Expr} : Mentions id a → Mentions id (.pow a b)
  | powRight {a b : Expr} : Mentions id b → Mentions id (.pow a b)
  | call {func : Datum} {arguments : List Expr} {e : Expr} :
      e ∈ arguments → Mentions id e → Mentions id (.call func arguments)

/-- The references of a list of expressions include those of each member. -/
theorem refs_of_refsOfAll {es : List Expr} {ids : List Identity} (h : refsOfAll es = .ok ids)
    {e : Expr} (he : e ∈ es) : ∃ part, e.refs = .ok part ∧ part ⊆ ids := by
  induction es generalizing ids with
  | nil => cases he
  | cons first rest ih =>
    simp only [refsOfAll, bind_eq_ok, pure_eq_ok] at h
    obtain ⟨front, hfront, others, hothers, rfl⟩ := h
    rcases List.mem_cons.mp he with rfl | he
    · exact ⟨front, hfront, List.subset_append_left front others⟩
    · obtain ⟨part, hpart, hsub⟩ := ih hothers he
      exact ⟨part, hpart, List.Subset.trans hsub (List.subset_append_right front others)⟩

/-- If the references of an expression can be listed, none that it mentions is left out. -/
theorem Mentions.mem_refs {id : Identity} {e : Expr} (h : e.Mentions id) {ids : List Identity}
    (hids : e.refs = .ok ids) : id ∈ ids := by
  induction h generalizing ids with
  | ref =>
    cases hids
    exact List.mem_singleton_self id
  | block hmem =>
    cases hids
    exact hmem
  | negate _ ih => exact ih hids
  | addLeft _ ih | subLeft _ ih | mulLeft _ ih | divLeft _ ih | powLeft _ ih =>
    simp only [refs, bind_eq_ok, pure_eq_ok] at hids
    obtain ⟨left, hleft, right, -, rfl⟩ := hids
    exact List.mem_append_left right (ih hleft)
  | addRight _ ih | subRight _ ih | mulRight _ ih | divRight _ ih | powRight _ ih =>
    simp only [refs, bind_eq_ok, pure_eq_ok] at hids
    obtain ⟨left, -, right, hright, rfl⟩ := hids
    exact List.mem_append_right left (ih hright)
  | call hmem _ ih =>
    rw [refs] at hids
    obtain ⟨part, hpart, hsub⟩ := refs_of_refsOfAll hids hmem
    exact hsub (ih hpart)

end BayesGraph.Expr
