import Mathlib
import BayesGraph.Proofs.KnownReals
import BayesGraph.Proofs.References
import BayesGraph.Proofs.Table

/-!
# Functions that do not tell known reals from computed ones

A function is faithful if it gives known reals what it gives computed ones. All built-in functions
are (`Registry.faithful_builtin`): most of them convert their arguments first, and the others do
arithmetic or compare. An expression with faithful functions has the same value where references
are known as where they are computed (`Expr.eval_follows`).
-/

set_option autoImplicit false

namespace BayesGraph

open Outcome ExactReals

/-- Where the function has a value for computed reals, it has the same value for known ones. -/
def Operation.Faithful (f : Operation ℝ) : Prop :=
  ∀ mode vs ws, List.Forall₂ Value.Alike vs ws → Value.Follows (f mode vs) (f mode ws)

namespace Builtin

open Value

variable {v w x x' y y' : Value ℝ}

/-! ## Numbers of arguments -/

section Arguments

variable {f : Value ℝ → Except EvalError (Value ℝ)}

/-- A function of one argument is faithful if known reals follow computed ones. -/
theorem faithful_unary (h : ∀ v w, Alike v w → Follows (f v) (f w)) :
    Operation.Faithful (unary f) := by
  intro mode vs ws hargs
  obtain _ | ⟨hx, _ | ⟨_, _⟩⟩ := hargs
  · exact follows_error _
  · exact h _ _ hx
  · exact follows_error _

/-- A function of two arguments is faithful if known reals follow computed ones. -/
theorem faithful_binary {f : Value ℝ → Value ℝ → Except EvalError (Value ℝ)}
    (h : ∀ v w v' w', Alike v v' → Alike w w' → Follows (f v w) (f v' w')) :
    Operation.Faithful (binary f) := by
  intro mode vs ws hargs
  obtain _ | ⟨hx, _ | ⟨hy, _ | ⟨_, _⟩⟩⟩ := hargs
  · exact follows_error _
  · exact follows_error _
  · exact h _ _ _ _ hx hy
  · exact follows_error _

/-- An elementwise function is faithful if known reals follow computed ones. -/
theorem faithful_entrywise (h : ∀ v w, Alike v w → Follows (f v) (f w)) :
    Operation.Faithful (entrywise .density f) := by
  intro mode vs ws hargs
  obtain _ | ⟨hx, _ | ⟨_, _ | ⟨_, _⟩⟩⟩ := hargs
  · exact follows_error _
  · exact h _ _ hx
  · exact follows_error _
  · exact follows_error _

/-- Whether all arguments are absent does not depend on their form. -/
theorem all_isNothing_eq {vs ws : List (Value ℝ)} (h : List.Forall₂ Alike vs ws) :
    vs.all Value.isNothing = ws.all Value.isNothing := by
  induction h with
  | nil => rfl
  | cons hvw _ ih => rw [List.all_cons, List.all_cons, hvw.isNothing_eq, ih]

/-- An axis is read alike from a known real and from a computed one. -/
theorem axis?_eq (h : Alike v w) : axis? v = axis? w := by
  cases h <;> rfl

/-- A function along an axis is faithful if known reals follow computed ones for each of them. -/
theorem faithful_withAxis {f : Option Int → Value ℝ → Except EvalError (Value ℝ)}
    (h : ∀ k v w, Alike v w → Follows (f k v) (f k w)) : Operation.Faithful (withAxis f) := by
  intro mode vs ws hargs
  obtain _ | ⟨hx, _ | ⟨haxis, hoptions⟩⟩ := hargs
  · exact follows_error _
  · exact h none _ _ hx
  · refine follows_bind_of_eq (axis?_eq haxis) fun k => ?_
    rw [hoptions.length_eq, all_isNothing_eq hoptions]
    split
    · exact h k _ _ hx
    · exact follows_error _

end Arguments

/-! ## Functions of reals -/

/-- A function of reals is lifted to both forms alike. -/
theorem follows_lift {f : ℝ → ℝ} (h : Alike v w) :
    Follows (v.lift .density f) (w.lift .density f) := by
  unfold lift
  refine follows_bind_of_eq h.argument_eq fun t => follows_of_eq rfl fun u hu => ?_
  cases hu
  rfl

/-- An elementwise function of reals is faithful. -/
theorem faithful_elementwise (f : ℝ → ℝ) : Operation.Faithful (elementwise .density f) :=
  faithful_entrywise fun _ _ h => follows_lift h

/-- A function of reals that converts its argument is faithful. -/
theorem faithful_converting (f : ℝ → ℝ) : Operation.Faithful (converting .density f) := by
  refine faithful_entrywise fun v w h => ?_
  cases h with
  | same h =>
    refine follows_of_eq rfl fun u hu => ?_
    cases v with
    | number k =>
      obtain ⟨b, -, hb⟩ := bind_eq_ok.mp hu
      cases hb
      rfl
    | word _ _ | array _ _ | object _ =>
      obtain ⟨t, -, ht⟩ := bind_eq_ok.mp hu
      cases ht
      rfl
  | known a => exact follows_ok (.same rfl)

/-- A function that takes only reals is faithful. -/
theorem faithful_realsOnly (sized : Bool) (f : ℝ → ℝ) :
    Operation.Faithful (realsOnly .density sized f) := by
  refine faithful_entrywise fun v w h => ?_
  cases h with
  | same h =>
    refine follows_of_eq rfl fun u hu => ?_
    match v with
    | .number (.int n) => cases hu
    | .word _ _ => cases hu
    | .number (.real _) | .array _ _ | .object _ =>
      obtain ⟨t, -, ht⟩ := bind_eq_ok.mp hu
      cases ht
      rfl
  | known a => exact follows_ok (.same rfl)

/-! ## Functions of integers and reals -/

/-- A computed value is computed under the given rules. -/
theorem settled_computed (h : computed .density v = .ok w) : w.Settled := by
  match v with
  | .number (.int n) =>
    unfold computed computedInt at h
    dsimp only at h
    split at h <;> cases h
    rfl
  | .number (.real x) =>
    cases h
    rfl
  | .word r w =>
    cases h
    rfl
  | .array r t =>
    cases h
    rfl
  | .object d =>
    obtain ⟨t, -, ht⟩ := bind_eq_ok.mp h
    cases ht
    rfl

/-- A function with a case for integers treats both forms of a real alike. -/
theorem follows_integral {onInt : Int → Int} {onReal : ℝ → ℝ} (h : Alike v w) :
    Follows (integral .density onInt onReal v) (integral .density onInt onReal w) := by
  unfold integral
  rw [h.computed_eq]
  refine follows_of_eq rfl fun u hu => ?_
  rw [bind_eq_ok] at hu
  obtain ⟨c, hc, hu⟩ := hu
  have hsettled := settled_computed hc
  split at hu
  · cases hu
    trivial
  · cases hu
    exact hsettled
  · simp only [bind_eq_ok, pure_eq_ok] at hu
    obtain ⟨_, -, rfl⟩ := hu
    rfl

/-- The choice between two values treats both forms of reals alike. -/
theorem follows_pairwise {onInts : Int → Int → Int} {onReals : ℝ → ℝ → ℝ} (hx : Alike x x')
    (hy : Alike y y') :
    Follows (pairwise .density onInts onReals x y) (pairwise .density onInts onReals x' y') := by
  have hpairwise (p q : Value ℝ) : pairwise .density onInts onReals p q = (do
      let a ← computed .density p
      let b ← computed .density q
      arithmetic onInts onReals a b) := rfl
  rw [hpairwise, hpairwise, hx.computed_eq, hy.computed_eq]
  refine follows_of_eq rfl fun v hv => ?_
  simp only [bind_eq_ok] at hv
  obtain ⟨a, ha, b, hb, hv⟩ := hv
  exact settled_arithmetic hv (settled_computed ha) (settled_computed hb)

/-! ## Reductions -/

/-- What an array is reduced to is computed. -/
theorem settled_reduceTensor {f : List ℝ → ℝ} {axis : Option Int} {t : Tensor ℝ}
    (h : reduceTensor .density f axis t = .ok v) : v.Settled := by
  cases axis with
  | none =>
    cases h
    rfl
  | some k =>
    obtain ⟨_, -, hk⟩ := bind_eq_ok.mp h
    cases hk
    rfl

/-- A reduction treats both forms of a real alike. -/
theorem follows_reduceValue {f : List ℝ → ℝ} {axis : Option Int} (h : Alike v w) :
    Follows (reduceValue .density f axis v) (reduceValue .density f axis w) := by
  simp only [reduceValue, density_join, h.computed_eq]
  refine follows_of_eq rfl fun u hu => ?_
  rw [bind_eq_ok] at hu
  obtain ⟨c, hc, hu⟩ := hu
  split at hu
  · split at hu
    · exact settled_reduceTensor hu
    · exact settled_reduceTensor hu
  · split at hu
    · cases hu
      exact settled_computed hc
    · cases hu

/-- A reduction of reals treats both forms of a real alike. -/
theorem follows_realReduction {f : List ℝ → ℝ} {axis : Option Int} (h : Alike v w) :
    Follows (realReduction .density f axis v) (realReduction .density f axis w) := by
  have hreduce (x : Value ℝ) (hx : ∀ d, x ≠ .object d) : realReduction .density f axis x = (do
      reduceTensor .density f axis (← x.operand .density)) := by
    unfold realReduction
    rw [density_join]
    cases x with
    | object d => exact absurd rfl (hx d)
    | number _ | word _ _ | array _ _ => rfl
  cases h with
  | same h =>
    refine follows_of_eq rfl fun u hu => ?_
    unfold realReduction at hu
    rw [density_join] at hu
    cases v with
    | number _ | word _ _ | array _ _ | object _ =>
      obtain ⟨_, -, hu⟩ := bind_eq_ok.mp hu
      exact settled_reduceTensor hu
  | known a =>
    rw [hreduce _ (by simp [scalar]), hreduce _ (by simp [real])]
    refine follows_of_eq rfl fun u hu => ?_
    obtain ⟨_, -, hu⟩ := bind_eq_ok.mp hu
    exact settled_reduceTensor hu

/-- The standard deviation is faithful. -/
theorem faithful_deviation : Operation.Faithful (deviation .density) := by
  intro mode vs ws hargs
  obtain _ | ⟨hx, _ | ⟨_, _⟩⟩ := hargs
  · exact follows_error _
  · exact follows_realReduction hx
  · exact follows_error _

/-- The inner product is faithful. -/
theorem faithful_innerProduct : Operation.Faithful (innerProduct .density) := by
  intro mode vs ws hargs
  obtain _ | ⟨hx, _ | ⟨hy, _ | ⟨_, _⟩⟩⟩ := hargs
  · exact follows_error _
  · exact follows_error _
  · exact (follows_pairwise hx hy).bind fun v w h => follows_reduceValue h
  · exact follows_error _

/-- The greatest and the least member are faithful. -/
theorem faithful_extreme {onInts : Int → Int → Int} {onReals : ℝ → ℝ → ℝ} {onList : List ℝ → ℝ} :
    Operation.Faithful (extreme .density onInts onReals onList) := by
  intro mode vs ws hargs
  obtain _ | ⟨hx, _ | ⟨hy, _ | ⟨_, _ | ⟨_, _⟩⟩⟩⟩ := hargs
  · exact follows_error _
  · exact follows_reduceValue hx
  · exact follows_pairwise hx hy
  · exact (follows_pairwise hx hy).bind fun v w _ => follows_error _
  · exact follows_error _

/-! ## Rounding -/

/-- Rounding treats both forms of a real alike. -/
theorem follows_roundValue {decimals : Int} (h : Alike v w) :
    Follows (roundValue .density decimals v) (roundValue .density decimals w) := by
  unfold roundValue
  rw [h.computed_eq]
  refine follows_of_eq rfl fun u hu => ?_
  rw [bind_eq_ok] at hu
  obtain ⟨c, hc, hu⟩ := hu
  have hsettled := settled_computed hc
  cases c with
  | word r n =>
    dsimp only at hu
    split at hu
    · cases hu
      exact hsettled
    · cases hu
  | array r t =>
    obtain ⟨_, -, ht⟩ := bind_eq_ok.mp hu
    cases ht
    rfl
  | number _ | object _ => cases hu

/-- The number of decimals has to be known, and to be an integer. -/
theorem follows_decimalsOf {d d' : Value ℝ} {f g : Int → Except EvalError (Value ℝ)}
    (hd : Alike d d') (h : ∀ n, Follows (f n) (g n)) :
    Follows (decimalsOf .density d >>= f) (decimalsOf .density d' >>= g) := by
  cases hd with
  | same _ => exact follows_bind_of_eq rfl h
  | known a => exact follows_error _

/-- A rounded value is stored alike beside both forms of the decimals. -/
theorem follows_storeRounded {p p' v w : Value ℝ} (hp : Alike p p') (h : Alike v w) :
    Follows (storeRounded .density p v) (storeRounded .density p' w) := by
  intro u hu
  cases hp with
  | same _ =>
    match p with
    | .object .nothing =>
      cases hu
      exact ⟨w, rfl, h⟩
    | .object (.int _) | .object (.real _) | .object (.text _) | .object (.list _) => cases hu
    | .number _ | .word _ _ | .array _ _ => cases hu
  | known a => cases hu

/-- Rounding is faithful. -/
theorem faithful_rounding : Operation.Faithful (rounding .density) := by
  intro mode vs ws hargs
  obtain _ | ⟨hx, _ | ⟨hd, _ | ⟨hp, _ | ⟨_, _⟩⟩⟩⟩ := hargs
  · exact follows_error _
  · simp only [rounding, density_join]
    exact follows_roundValue hx
  · simp only [rounding, density_join]
    exact follows_decimalsOf hd fun n => follows_roundValue hx
  · simp only [rounding, density_join]
    exact follows_decimalsOf hd fun n =>
      (follows_roundValue hx).bind fun v w h => follows_storeRounded hp h
  · exact follows_error _

/-! ## All functions -/

/-- A function of the opposite is faithful. -/
theorem faithful_cloglog {f : ℝ → ℝ} :
    Operation.Faithful (unary fun x => do (← x.negate).lift .density f) :=
  faithful_unary fun _ _ h => (follows_negate h).bind fun _ _ h => follows_lift h

/-- A function of the successor is faithful. -/
theorem faithful_logfact {f : ℝ → ℝ} :
    Operation.Faithful (unary fun x => do (← x.add (.real one)).lift .density f) :=
  faithful_unary fun _ _ h =>
    (follows_add h (.same (v := .real one) trivial)).bind fun _ _ h => follows_lift h

/-- All built-in functions are faithful. -/
theorem faithful_operations : ∀ e ∈ operations (α := ℝ) .density, Operation.Faithful e.2 := by
  simp only [operations, List.forall_mem_cons, List.not_mem_nil, false_implies, implies_true]
  -- in the order of their names
  exact ⟨faithful_entrywise fun _ _ h => follows_integral h,
    faithful_cloglog,
    faithful_elementwise _,
    faithful_binary fun _ _ _ _ h h' => follows_equals h h',
    faithful_elementwise _,
    faithful_unary fun _ _ h => follows_lift h,
    faithful_converting _,
    faithful_innerProduct,
    faithful_elementwise _,
    faithful_logfact,
    faithful_converting _,
    faithful_elementwise _,
    faithful_converting _,
    faithful_extreme,
    faithful_withAxis fun _ _ _ h => follows_realReduction h,
    faithful_extreme,
    faithful_realsOnly _ _,
    faithful_binary fun _ _ _ _ h h' => follows_power h h',
    faithful_realsOnly _ _,
    faithful_withAxis fun _ _ _ h => follows_reduceValue h,
    faithful_rounding,
    faithful_deviation,
    faithful_elementwise _,
    faithful_elementwise _,
    faithful_unary fun _ _ h => follows_atLeast h (.same (v := .int 0) trivial),
    faithful_withAxis fun _ _ _ h => follows_reduceValue h,
    faithful_entrywise fun _ _ h => follows_integral h, trivial⟩

end Builtin

/-! ## Families and registries -/

/-- The same bounds, or computed reals and the same reals as known ones. -/
structure Support.Alike (s s' : Support ℝ) : Prop where
  lower : Option.Rel Value.Alike s.lower s'.lower
  upper : Option.Rel Value.Alike s.upper s'.upper

/-- For known parameters, the support has the bounds that it has for computed ones. -/
def Family.Faithful (f : Family ℝ) : Prop :=
  ∀ vs ws, List.Forall₂ Value.Alike vs ws → (f.support.meaning vs).Alike (f.support.meaning ws)

/-- No function or family under a name tells known reals from computed ones. -/
structure Registry.Faithful (r : Registry ℝ) : Prop where
  functions : ∀ name f, r.functions.get? name = some f → Operation.Faithful f.meaning
  families : ∀ name f, r.families.get? name = some f → f.Faithful

namespace Builtin

open Value

section Supports

variable {α : Type} [Scalar α] {R : Value α → Value α → Prop}

omit [Scalar α] in
/-- Parameters at one place of two lists that correspond. -/
theorem related_getElem? {vs ws : List (Value α)} (h : List.Forall₂ R vs ws) (k : Nat) :
    Option.Rel R vs[k]? ws[k]? := by
  induction h generalizing k with
  | nil => exact .none
  | cons hvw _ ih =>
    cases k with
    | zero => exact .some hvw
    | succ k => exact ih k

/-- The bounds of the built-in families are fixed, or are parameters: if fixed reals are related to
themselves, parameters that correspond give bounds that correspond. -/
theorem related_families (hR : ∀ n : Int, R (.real (num n)) (.real (num n))) :
    ∀ f ∈ families (α := α), ∀ vs ws, List.Forall₂ R vs ws →
      Option.Rel R (f.support.meaning vs).lower (f.support.meaning ws).lower ∧
        Option.Rel R (f.support.meaning vs).upper (f.support.meaning ws).upper := by
  have hbound (n : Option Int) : Option.Rel R (n.map fun n => (real (num n) : Value α))
      (n.map fun n => real (num n)) := by
    cases n with
    | none => exact .none
    | some n => exact .some (hR n)
  have hfixed {f : Family α} {lower upper : Option Int} (h : f.support = fixedSupport lower upper)
      (vs ws : List (Value α)) (_ : List.Forall₂ R vs ws) :
      Option.Rel R (f.support.meaning vs).lower (f.support.meaning ws).lower ∧
        Option.Rel R (f.support.meaning vs).upper (f.support.meaning ws).upper := by
    rw [h]
    exact ⟨hbound lower, hbound upper⟩
  simp only [families, continuousFamilies, discreteFamilies, List.forall_mem_append,
    List.forall_mem_cons, List.not_mem_nil, false_implies, implies_true]
  -- in the order of the lists
  exact ⟨⟨hfixed rfl, hfixed rfl, hfixed rfl, hfixed rfl, hfixed rfl, hfixed rfl, hfixed rfl,
    hfixed rfl, hfixed rfl, hfixed rfl,
    fun _ _ h => ⟨related_getElem? h 0, related_getElem? h 1⟩,
    fun _ _ h => ⟨related_getElem? h 1, .none⟩, trivial⟩,
    hfixed rfl, fun _ _ h => ⟨.some (hR 0), related_getElem? h 1⟩, hfixed rfl, hfixed rfl, trivial⟩

end Supports

/-- All built-in families are faithful. -/
theorem faithful_families : ∀ f ∈ families (α := ℝ), f.Faithful := fun f hf vs ws h =>
  let ⟨hlower, hupper⟩ := related_families (fun _ => .same trivial) f hf vs ws h
  ⟨hlower, hupper⟩

end Builtin

/-- The registry of the built-in functions and families is faithful. -/
theorem Registry.faithful_builtin : (builtin : Registry ℝ).Faithful where
  functions name f h := by
    obtain ⟨e, he, rfl⟩ := Table.exists_of_get?_ofList_map h
    exact Builtin.faithful_operations e he
  families name f h := by
    obtain ⟨_, hmem, rfl⟩ := Table.exists_of_get?_ofList_map h
    exact Builtin.faithful_families _ hmem

/-! ## Expressions -/

namespace Expr

open Value

variable {functions : FunctionTable ℝ} {mode : CallMode}
  {l l' : Identity → Except EvalError (Value ℝ)}

/-- The value of an object is known, so that nothing is to be settled. -/
theorem settled_value (d : Datum) : (d.value : Value ℝ).Settled := by
  cases d <;> trivial

/-- The entries of a block are the same reals, known or computed. -/
theorem block_entries_follow {ids : List Identity} (hl : ∀ id ∈ ids, Follows (l id) (l' id))
    {vs : List (Value ℝ)}
    (h : (ids.mapM fun id => do
      let v ← l id
      return Value.array .density (← v.toTensor)) = .ok vs) :
    (ids.mapM fun id => do
      let v ← l' id
      return Value.array .density (← v.toTensor)) = .ok vs := by
  refine mapM_eq_ok_of_imp h fun id hid v hv => ?_
  simp only [bind_eq_ok, pure_eq_ok] at hv ⊢
  obtain ⟨u, hu, t, ht, rfl⟩ := hv
  obtain ⟨w, hw, huw⟩ := hl id hid u hu
  exact ⟨w, hw, t, huw.toTensor_eq ▸ ht, rfl⟩

mutual

/-- Where references are known, an expression with faithful functions has the value that it has
where they are computed. -/
theorem eval_follows (hf : ∀ name f, functions.get? name = some f → Operation.Faithful f.meaning)
    (e : Expr) {ids : List Identity} (h : e.refs = .ok ids)
    (hl : ∀ id ∈ ids, Follows (l id) (l' id)) :
    Follows (e.eval ⟨.density, mode, functions, l⟩) (e.eval ⟨.density, mode, functions, l'⟩) := by
  match e with
  | .literal d => exact follows_ok (.same (settled_value d))
  | .ref id =>
    cases h
    exact hl id List.mem_cons_self
  | .refArray refs shape =>
    cases h
    intro v hv
    obtain ⟨vs, hvs, hv⟩ := bind_eq_ok.mp hv
    exact ⟨v, bind_eq_ok.mpr ⟨vs, block_entries_follow hl hvs, hv⟩, .same (settled_block hv)⟩
  | .negate val =>
    exact (eval_follows hf val h hl).bind fun _ _ h => follows_negate h
  | .add a b =>
    simp only [refs, bind_eq_ok, pure_eq_ok] at h
    obtain ⟨left, hleft, right, hright, rfl⟩ := h
    exact (eval_follows hf a hleft fun id hid => hl id (List.mem_append_left _ hid)).bind₂
      (eval_follows hf b hright fun id hid => hl id (List.mem_append_right _ hid)) follows_add
  | .sub a b =>
    simp only [refs, bind_eq_ok, pure_eq_ok] at h
    obtain ⟨left, hleft, right, hright, rfl⟩ := h
    exact (eval_follows hf a hleft fun id hid => hl id (List.mem_append_left _ hid)).bind₂
      (eval_follows hf b hright fun id hid => hl id (List.mem_append_right _ hid)) follows_sub
  | .mul a b =>
    simp only [refs, bind_eq_ok, pure_eq_ok] at h
    obtain ⟨left, hleft, right, hright, rfl⟩ := h
    exact (eval_follows hf a hleft fun id hid => hl id (List.mem_append_left _ hid)).bind₂
      (eval_follows hf b hright fun id hid => hl id (List.mem_append_right _ hid)) follows_mul
  | .div a b =>
    simp only [refs, bind_eq_ok, pure_eq_ok] at h
    obtain ⟨left, hleft, right, hright, rfl⟩ := h
    exact (eval_follows hf a hleft fun id hid => hl id (List.mem_append_left _ hid)).bind₂
      (eval_follows hf b hright fun id hid => hl id (List.mem_append_right _ hid)) follows_divide
  | .pow a b =>
    simp only [refs, bind_eq_ok, pure_eq_ok] at h
    obtain ⟨left, hleft, right, hright, rfl⟩ := h
    exact (eval_follows hf a hleft fun id hid => hl id (List.mem_append_left _ hid)).bind₂
      (eval_follows hf b hright fun id hid => hl id (List.mem_append_right _ hid)) follows_power
  | .call func arguments =>
    intro v hv
    obtain ⟨vs, hvs, hv⟩ := bind_eq_ok.mp hv
    obtain ⟨ws, hws, hargs⟩ := evalAll_follows hf arguments h hl hvs
    unfold Environment.call at hv
    -- Only the name of a function decides what is called, which is the same on both sides.
    split at hv
    · next f hname =>
      obtain ⟨name, -, hget⟩ := Option.bind_eq_some_iff.mp hname
      obtain ⟨w, hw, hvw⟩ := hf name f hget mode vs ws hargs v hv
      refine ⟨w, bind_eq_ok.mpr ⟨ws, hws, ?_⟩, hvw⟩
      unfold Environment.call
      rw [hname]
      exact hw
    · cases hv
  | .var _ | .colon | .range _ _ | .index _ _ | .raw _ | .rawList _ => cases h

/-- The same for the expressions of a list. -/
theorem evalAll_follows (hf : ∀ name f, functions.get? name = some f → Operation.Faithful f.meaning)
    (es : List Expr) {ids : List Identity} (h : refsOfAll es = .ok ids)
    (hl : ∀ id ∈ ids, Follows (l id) (l' id)) {vs : List (Value ℝ)}
    (hvs : evalAll ⟨.density, mode, functions, l⟩ es = .ok vs) :
    ∃ ws, evalAll ⟨.density, mode, functions, l'⟩ es = .ok ws ∧ List.Forall₂ Alike vs ws := by
  match es with
  | [] =>
    cases hvs
    exact ⟨[], rfl, .nil⟩
  | e :: rest =>
    simp only [refsOfAll, bind_eq_ok, pure_eq_ok] at h
    obtain ⟨first, hfirst, others, hothers, rfl⟩ := h
    simp only [evalAll, bind_eq_ok, pure_eq_ok] at hvs ⊢
    obtain ⟨v, hv, rest', hrest, rfl⟩ := hvs
    obtain ⟨w, hw, hvw⟩ :=
      eval_follows hf e hfirst (fun id hid => hl id (List.mem_append_left _ hid)) v hv
    obtain ⟨ws, hws, hargs⟩ :=
      evalAll_follows hf rest hothers (fun id hid => hl id (List.mem_append_right _ hid)) hrest
    exact ⟨w :: ws, ⟨w, hw, ws, hws, rfl⟩, .cons hvw hargs⟩

end

end Expr

end BayesGraph
