import BayesGraph.Proofs.ConcurringFunctions

/-!
# Exact evaluations

Where no arithmetic of words wraps around and all functions are exact at their arguments, an
expression has a value that stands for the same numbers if the values that it refers to do
(`Expr.concur_eval`). The density of a distribution takes its parameters, its bounds and its
argument as reals, so it does not depend on the form of these numbers at all
(`BoundDist.concur_logPdf`).
-/

set_option autoImplicit false

namespace BayesGraph

open Outcome Value

namespace Expr

variable {α : Type} [Scalar α]

mutual

/-- When the expression is evaluated, no arithmetic of words wraps around, and all functions are
exact at their arguments. -/
def IsExact (env : Environment α) : Expr → Prop
  | .negate val => IsExact env val ∧ ∀ x, val.eval env = .ok x →
      Value.IsExact x.negate (x.integer?.map fun n => -n)
  | .add a b => IsExact env a ∧ IsExact env b ∧ ∀ x y, a.eval env = .ok x → b.eval env = .ok y →
      Value.IsExact (x.add y) (Option.map₂ (· + ·) x.integer? y.integer?)
  | .sub a b => IsExact env a ∧ IsExact env b ∧ ∀ x y, a.eval env = .ok x → b.eval env = .ok y →
      Value.IsExact (x.sub y) (Option.map₂ (· - ·) x.integer? y.integer?)
  | .mul a b => IsExact env a ∧ IsExact env b ∧ ∀ x y, a.eval env = .ok x → b.eval env = .ok y →
      Value.IsExact (x.mul y) (Option.map₂ (· * ·) x.integer? y.integer?)
  | .div a b | .pow a b => IsExact env a ∧ IsExact env b
  | .call func arguments => AreExact env arguments ∧
      ∀ f, func.text?.bind env.functions.get? = some f → ∀ xs, evalAll env arguments = .ok xs →
        f.meaning.ExactAt env.mode xs
  | .literal _ | .ref _ | .refArray _ _ | .var _ | .colon | .range _ _ | .index _ _ | .raw _
  | .rawList _ => True

/-- All expressions of a list are exact. -/
def AreExact (env : Environment α) : List Expr → Prop
  | [] => True
  | e :: rest => IsExact env e ∧ AreExact env rest

end

/-- A list of expressions is exact if each of them is. -/
theorem areExact_iff {env : Environment α} {es : List Expr} :
    AreExact env es ↔ ∀ e ∈ es, e.IsExact env := by
  induction es with
  | nil => simp [AreExact]
  | cons e rest ih => rw [AreExact, ih, List.forall_mem_cons]

variable {functions : FunctionTable α} {mode : CallMode}
  {l l' : Identity → Except EvalError (Value α)}

/-- A call of a built-in function is exact where the opposites and the products of integers among
its arguments fit words. -/
theorem isExact_call_builtin [ExactIntegers α] {l : Identity → Except EvalError (Value α)}
    {func : Datum} {arguments : List Expr}
    (h : AreExact ⟨.density, mode, (Registry.builtin : Registry α).functions, l⟩ arguments)
    (hsmall : ∀ xs, evalAll ⟨.density, mode, (Registry.builtin : Registry α).functions, l⟩
      arguments = .ok xs → AreSmall xs) :
    IsExact ⟨.density, mode, (Registry.builtin : Registry α).functions, l⟩
      (.call func arguments) := by
  refine ⟨h, fun f hf xs hxs => ?_⟩
  obtain ⟨name, -, hname⟩ := Option.bind_eq_some_iff.mp hf
  exact Registry.exact_builtin hname mode xs (hsmall xs hxs)

/-- The value of an object is computed under no rules, since it is known. -/
theorem isDense_value (d : Datum) : (d.value : Value α).IsDense := by
  cases d with
  | int _ | real _ | truth _ => exact isDense_number _
  | nothing | text _ | list _ | record _ => exact isDense_object _

/-- An operator whose operands concur. -/
theorem concur_operator {x x' y y' : Except EvalError (Value α)}
    {f : Value α → Value α → Except EvalError (Value α)}
    (hx : Concur Renders x x') (hy : Concur Renders y y')
    (hf : ∀ v v' w w', x' = .ok v' → y' = .ok w' → Renders v v' → Renders w w' →
      Concur Renders (f v w) (f v' w')) :
    Concur Renders (do f (← x) (← y)) (do f (← x') (← y')) :=
  hx.bind fun v v' _ hv' hv => hy.bind fun w w' _ hw' hw => hf v v' w w' hv' hw' hv hw

mutual

/-- Exact expressions have values that stand for the same numbers if their references do. -/
theorem concur_eval [ExactIntegers α] (hl : ∀ id, Concur Renders (l id) (l' id)) (e : Expr)
    (hexact : e.IsExact ⟨.density, mode, functions, l'⟩) :
    Concur Renders (e.eval ⟨.density, mode, functions, l⟩)
      (e.eval ⟨.density, mode, functions, l'⟩) := by
  match e with
  | .literal d => exact .ok (.same (isDense_value d))
  | .ref id => exact hl id
  | .refArray ids shape =>
    -- The entries of a block are read one by one and need not be exact, as they are made reals.
    have hentries : Concur (List.Forall₂ Renders)
        (ids.mapM fun id => do
          let v ← l id
          return Value.array .density (← v.toTensor))
        (ids.mapM fun id => do
          let v ← l' id
          return Value.array .density (← v.toTensor)) := by
      refine .mapM (List.forall₂_same.mpr fun id _ => (hl id).bind fun v w _ _ hvw => ?_)
      exact .bind_eq hvw.toTensor fun t => .ok (.same (isDense_array t))
    exact hentries.bind fun vs ws _ _ hvws => concur_block hvws shape
  | .negate val =>
    exact (concur_eval hl val hexact.1).bind fun v w _ hw hvw => hvw.negate (hexact.2 w hw)
  | .add a b =>
    exact concur_operator (concur_eval hl a hexact.1) (concur_eval hl b hexact.2.1)
      fun v v' w w' hv' hw' hv hw => hv.add hw (hexact.2.2 v' w' hv' hw')
  | .sub a b =>
    exact concur_operator (concur_eval hl a hexact.1) (concur_eval hl b hexact.2.1)
      fun v v' w w' hv' hw' hv hw => hv.sub hw (hexact.2.2 v' w' hv' hw')
  | .mul a b =>
    exact concur_operator (concur_eval hl a hexact.1) (concur_eval hl b hexact.2.1)
      fun v v' w w' hv' hw' hv hw => hv.mul hw (hexact.2.2 v' w' hv' hw')
  | .div a b =>
    exact concur_operator (concur_eval hl a hexact.1) (concur_eval hl b hexact.2)
      fun _ _ _ _ _ _ hv hw => hv.divide hw
  | .pow a b =>
    exact concur_operator (concur_eval hl a hexact.1) (concur_eval hl b hexact.2)
      fun _ _ _ _ _ _ hv hw => hv.power hw
  | .call func arguments =>
    refine (concur_evalAll hl arguments hexact.1).bind fun vs ws _ hws hargs => ?_
    unfold Environment.call
    cases hf : func.text?.bind functions.get? with
    | some f => exact hexact.2 f hf ws hws vs hargs
    | none => exact .error _
  | .var _ | .colon | .range _ _ | .index _ _ | .raw _ | .rawList _ => exact .error _

/-- The same for the expressions of a list. -/
theorem concur_evalAll [ExactIntegers α] (hl : ∀ id, Concur Renders (l id) (l' id)) (es : List Expr)
    (hexact : AreExact ⟨.density, mode, functions, l'⟩ es) :
    Concur (List.Forall₂ Renders) (evalAll ⟨.density, mode, functions, l⟩ es)
      (evalAll ⟨.density, mode, functions, l'⟩ es) := by
  match es with
  | [] => exact .ok .nil
  | e :: rest =>
    exact (concur_eval hl e hexact.1).bind fun v w _ _ hvw =>
      (concur_evalAll hl rest hexact.2).bind fun vs ws _ _ hvws => .ok (.cons hvw hvws)

end

end Expr

/-! ## Distributions -/

namespace BoundDist

variable {α : Type} [Scalar α] {d d' : BoundDist α} {x x' : Value α}

/-- The same family, with parameters and bounds that stand for the same numbers. -/
structure Renders (d d' : BoundDist α) : Prop where
  family : d.family = d'.family
  params : List.Forall₂ Value.Renders d.params d'.params
  lower : Option.Rel Value.Renders d.lower d'.lower
  upper : Option.Rel Value.Renders d.upper d'.upper

/-- Both distributions are truncated, or neither of them is. -/
theorem Renders.truncated_eq (h : d.Renders d') : d.truncated = d'.truncated := by
  unfold truncated
  rw [isSome_eq_of_rel h.lower, isSome_eq_of_rel h.upper]

/-- The parameters are the same arrays of reals, unless an integer is too large. -/
theorem Renders.realParams (h : d.Renders d') : Concur (· = ·) d.realParams d'.realParams :=
  (Concur.mapM (h.params.imp fun _ _ h => h.toTensor)).mono fun _ _ h =>
    List.forall₂_eq_eq_eq ▸ h

/-- The logarithm of the distribution function at a bound is the same, unless an integer is too
large. -/
theorem Renders.logCdfAt (h : d.Renders d') {b b' : Value α} (hb : Value.Renders b b')
    (params : List (Tensor α)) :
    Concur (· = ·) (d.logCdfAt b params) (d'.logCdfAt b' params) := by
  unfold BoundDist.logCdfAt
  rw [h.family]
  cases d'.family.logCdf with
  | none => exact .error _
  | some f => exact .bind_eq hb.toTensor fun _ => .refl _

/-- The normalizer is the same, unless an integer is too large. -/
theorem Renders.logNormalizer (h : d.Renders d') :
    Concur (· = ·) d.logNormalizer d'.logNormalizer := by
  obtain ⟨family, params, lower, upper⟩ := d
  obtain ⟨family', params', lower', upper'⟩ := d'
  refine .bind_eq h.realParams fun ps => ?_
  cases h.lower with
  | none =>
    cases h.upper with
    | none => exact .refl _
    | some hu => exact .bind_eq (h.logCdfAt hu ps) fun _ => .refl _
  | some hl =>
    cases h.upper with
    | none => exact .bind_eq (h.logCdfAt hl ps) fun _ => .refl _
    | some hu =>
      exact .bind_eq (h.logCdfAt hu ps) fun _ => .bind_eq (h.logCdfAt hl ps) fun _ => .refl _

/-- Which points are inside a bound does not depend on the form of the bound. -/
theorem concur_insideBound {b b' : Option (Value α)} (h : Option.Rel Value.Renders b b')
    (t : Tensor α) (inside : α → α → Bool) :
    Concur (· = ·) (insideBound t b inside) (insideBound t b' inside) := by
  cases h with
  | none => exact .refl _
  | some h => exact .bind_eq h.operand fun _ => .refl _

/-- The density of a distribution does not depend on the form of the numbers that it is given. -/
theorem concur_logPdf (h : d.Renders d') (hx : Value.Renders x x') :
    Concur (· = ·) (d.logPdf x) (d'.logPdf x') := by
  unfold logPdf
  refine .bind_eq hx.toTensor fun t => .bind_eq h.realParams fun ps => ?_
  rw [h.family]
  refine .bind_eq (.refl _) fun p => ?_
  rw [h.truncated_eq]
  split
  · exact .bind_eq (concur_insideBound h.lower _ _) fun _ =>
      .bind_eq (concur_insideBound h.upper _ _) fun _ => .bind_eq h.logNormalizer fun _ => .refl _
  · exact .refl _

end BoundDist

namespace Graph

variable {α : Type} [Scalar α] [ExactIntegers α] {r : Registry α} {calls : CallMode}
  {l l' : Identity → Except EvalError (Value α)}

/-- Distributions are bound alike. -/
theorem concur_bindDist (hl : ∀ id, Concur Value.Renders (l id) (l' id)) (law : Dist)
    (hexact : ∀ e ∈ law.parts, e.IsExact ⟨.density, calls, r.functions, l'⟩) :
    Concur BoundDist.Renders (bindDist r ⟨.density, calls, r.functions, l⟩ law)
      (bindDist r ⟨.density, calls, r.functions, l'⟩ law) := by
  have hbound (bound : Option Expr) (hmem : ∀ e ∈ bound.toList, e ∈ law.parts) :
      Concur (Option.Rel Value.Renders)
        (bound.mapM (Expr.eval ⟨.density, calls, r.functions, l⟩))
        (bound.mapM (Expr.eval ⟨.density, calls, r.functions, l'⟩)) := by
    refine .optionMapM ?_
    cases bound with
    | none => exact .none
    | some e => exact .some (Expr.concur_eval hl e (hexact e (hmem e (List.mem_singleton_self e))))
  have hparams := Expr.concur_evalAll hl law.params
    (Expr.areExact_iff.mpr fun e he => hexact e (List.mem_append_left _ he))
  unfold bindDist
  refine hparams.bind fun ps ps' _ _ hps =>
    (hbound law.lower fun e he => List.mem_append_right _ (List.mem_append_left _ he)).bind
      fun lo lo' _ _ hlo =>
    (hbound law.upper fun e he => List.mem_append_right _ (List.mem_append_right _ he)).bind
      fun up up' _ _ hup => ?_
  cases law.name.text?.bind r.families.get? with
  | none => exact .error _
  | some family => exact .ok ⟨rfl, hps, hlo, hup⟩

end Graph

end BayesGraph
