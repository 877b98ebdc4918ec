import BayesGraph.Proofs.Outcome
import BayesGraph.Proofs.Table
import BayesGraph.Resolution

/-!
# More knowledge settles more

A computation that uses known constants can get stuck on one that is not known. If more becomes
known, a computation that was not stuck gives what it gave before (`Settles`): the same result, or
the same error. This holds of the value of an expression, of its resolution, of indices and loop
bounds, and of left-hand sides.

The shapes of arrays enter through empty index slots only. `Expr.emptySlots` lists those of an
expression; two contexts that agree on them, and of which one knows at least as much as the other,
resolve the expression alike up to where the first one gets stuck.
-/

set_option autoImplicit false

namespace BayesGraph

open Outcome

/-- The second computation does what the first one does, unless the first one is stuck. -/
def Settles {ε ν : Type} (stuck : ε → Prop) (x y : Except ε ν) : Prop :=
  x = y ∨ ∃ e, stuck e ∧ x = .error e

/-- A value is not known. -/
def EvalError.IsStuck (e : EvalError) : Prop := ∃ id, e = .notConstant id

/-- A value that is needed for an index or a bound is not known. -/
def Failure.IsStuck (e : Failure) : Prop := ∃ id, e = .eval (.notConstant id)

namespace Settles

variable {ε ν μ : Type} {stuck : ε → Prop}

/-- A computation settles as itself. -/
theorem refl (x : Except ε ν) : Settles stuck x x := Or.inl rfl

/-- Equal computations settle as each other. -/
theorem of_eq {x y : Except ε ν} (h : x = y) : Settles stuck x y := Or.inl h

/-- A success stays. -/
theorem eq_ok {x y : Except ε ν} (h : Settles stuck x y) {v : ν} (hx : x = .ok v) : y = .ok v := by
  rcases h with rfl | ⟨e, -, he⟩
  · exact hx
  · rw [hx] at he
    cases he

/-- Steps that settle one after the other settle together. -/
theorem bind {x y : Except ε ν} {f g : ν → Except ε μ} (h : Settles stuck x y)
    (hfg : ∀ v, x = .ok v → Settles stuck (f v) (g v)) :
    Settles stuck (x >>= f) (y >>= g) := by
  rcases h with rfl | ⟨e, he, rfl⟩
  · cases x with
    | error e => exact refl _
    | ok v => exact hfg v rfl
  · exact Or.inr ⟨e, he, rfl⟩

/-- A function of the result changes nothing. -/
theorem map {x y : Except ε ν} (f : ν → μ) (h : Settles stuck x y) :
    Settles stuck (f <$> x) (f <$> y) := by
  rcases h with rfl | ⟨e, he, rfl⟩
  · exact refl _
  · exact Or.inr ⟨e, he, rfl⟩

/-- Lists of steps that settle member by member. -/
theorem mapM {f g : μ → Except ε ν} {xs : List μ} (h : ∀ x ∈ xs, Settles stuck (f x) (g x)) :
    Settles stuck (xs.mapM f) (xs.mapM g) := by
  induction xs with
  | nil => exact refl _
  | cons x xs ih =>
    rw [List.mapM_cons, List.mapM_cons]
    refine bind (h x List.mem_cons_self) fun v _ => ?_
    exact bind (ih fun y hy => h y (List.mem_cons_of_mem x hy)) fun vs _ => refl _

/-- An optional step that settles. -/
theorem optionMapM {f g : μ → Except ε ν} {x : Option μ}
    (h : ∀ a, x = some a → Settles stuck (f a) (g a)) : Settles stuck (x.mapM f) (x.mapM g) := by
  cases x with
  | none => exact refl _
  | some a =>
    rw [Option.mapM_some, Option.mapM_some]
    exact map some (h a rfl)

end Settles

/-- A value that settles is one among all computations that do. -/
theorem Settles.lift {ν : Type} {x y : Except EvalError ν} (h : Settles EvalError.IsStuck x y) :
    Settles Failure.IsStuck (liftM x : Except Failure ν) (liftM y) := by
  rcases h with rfl | ⟨e, ⟨id, rfl⟩, rfl⟩
  · exact refl _
  · exact Or.inr ⟨_, ⟨id, rfl⟩, rfl⟩

namespace Expr

variable {α : Type} [Scalar α] {stuck : EvalError → Prop} {env env' : Environment α}

mutual

/-- Lookups and calls that settle let the value of an expression settle. -/
theorem eval_settles (hrules : env.rules = env'.rules)
    (hlookup : ∀ id, Settles stuck (env.lookup id) (env'.lookup id))
    (hcall : ∀ name xs, Settles stuck (env.call name xs) (env'.call name xs)) (e : Expr) :
    Settles stuck (e.eval env) (e.eval env') := by
  match e with
  | .literal _ => exact Settles.refl _
  | .ref id => exact hlookup id
  | .refArray ids shape =>
    rw [eval, eval, hrules]
    refine Settles.bind (Settles.mapM fun id _ => ?_) fun vs _ => Settles.refl _
    exact Settles.bind (hlookup id) fun v _ => Settles.refl _
  | .negate val =>
    rw [eval, eval]
    exact Settles.bind (eval_settles hrules hlookup hcall val) fun v _ => Settles.refl _
  | .add a b | .sub a b | .mul a b | .div a b | .pow a b =>
    simp only [eval, hrules]
    refine Settles.bind (eval_settles hrules hlookup hcall a) fun x _ => ?_
    exact Settles.bind (eval_settles hrules hlookup hcall b) fun y _ => Settles.refl _
  | .call func arguments =>
    rw [eval, eval]
    exact Settles.bind (evalAll_settles hrules hlookup hcall arguments) fun xs _ => hcall func xs
  | .var _ | .colon | .range _ _ | .index _ _ | .raw _ | .rawList _ => exact Settles.refl _

/-- Lookups and calls that settle let the values of expressions settle. -/
theorem evalAll_settles (hrules : env.rules = env'.rules)
    (hlookup : ∀ id, Settles stuck (env.lookup id) (env'.lookup id))
    (hcall : ∀ name xs, Settles stuck (env.call name xs) (env'.call name xs)) (es : List Expr) :
    Settles stuck (evalAll env es) (evalAll env' es) := by
  match es with
  | [] => exact Settles.refl _
  | e :: rest =>
    rw [evalAll, evalAll]
    refine Settles.bind (eval_settles hrules hlookup hcall e) fun v _ => ?_
    exact Settles.bind (evalAll_settles hrules hlookup hcall rest) fun vs _ => Settles.refl _

end

end Expr

/-! ## Empty index slots -/

/-- An empty index slot: the array, the dimension and the number of dimensions that are written. -/
structure Slot where
  name : String
  position : Nat
  rank : Nat

namespace Expr

mutual

/-- The empty index slots of an expression, those of its indices included. -/
def emptySlots : Expr → List Slot
  | .index name indices => indexSlots name.shown indices.length 0 indices
  | .negate val => emptySlots val
  | .add a b | .sub a b | .mul a b | .div a b | .pow a b => emptySlots a ++ emptySlots b
  | .call _ arguments => emptySlotsOfAll arguments
  | .literal _ | .var _ | .colon | .range _ _ | .ref _ | .refArray _ _ | .raw _ | .rawList _ => []

/-- The empty index slots of the expressions of a list. -/
def emptySlotsOfAll : List Expr → List Slot
  | [] => []
  | e :: rest => emptySlots e ++ emptySlotsOfAll rest

/-- The empty slots among indices, from dimension `d` of `rank` on, and those inside of them. -/
def indexSlots (name : String) (rank d : Nat) : List Expr → List Slot
  | [] => []
  | .colon :: rest => ⟨name, d, rank⟩ :: indexSlots name rank (d + 1) rest
  | .range a b :: rest => emptySlots a ++ (emptySlots b ++ indexSlots name rank (d + 1) rest)
  | e :: rest => emptySlots e ++ indexSlots name rank (d + 1) rest

end

/-- The empty slots inside the indices of a left-hand side. -/
def targetSlots : Expr → List Slot
  | .index _ indices => emptySlotsOfAll indices
  | _ => []

/-- A slot of a list of expressions is a slot of one of them. -/
theorem mem_emptySlotsOfAll {slot : Slot} {es : List Expr} :
    slot ∈ emptySlotsOfAll es ↔ ∃ e ∈ es, slot ∈ e.emptySlots := by
  induction es with
  | nil => simp [emptySlotsOfAll]
  | cons e es ih => simp [emptySlotsOfAll, ih]

end Expr

namespace Context

variable {α : Type}

/-- The positions that an empty slot selects. -/
def selection (ctx : Context α) (site : Site) (slot : Slot) : Except Failure (List Int) :=
  ctx.wholeDimension site slot.name slot.position slot.rank

/-- The first context knows no other constants than the second one, with the same values. -/
structure Below (ctx ctx' : Context α) : Prop where
  functions : ctx.functions = ctx'.functions
  constants : ctx.constants.Le ctx'.constants

end Context

/-- Two instances with the same values of loop variables and the same text. -/
structure Site.Alike (s s' : Site) : Prop where
  env : s.env = s'.env
  source : s.source = s'.source

/-- An instance is like itself. -/
theorem Site.Alike.refl (s : Site) : s.Alike s := ⟨rfl, rfl⟩

/-- Instances that are alike have the same errors. -/
theorem Site.Alike.refuse {s s' : Site} (h : s.Alike s') {ν : Type} (cause : Cause)
    (id : Option Identity) : (s.refuse cause id : Except Failure ν) = s'.refuse cause id := by
  unfold Site.refuse
  rw [h.source]

/-- A refusal is no success. -/
theorem Site.refuse_ne_ok {ν : Type} {s : Site} {cause : Cause} {id : Option Identity} {v : ν} :
    ¬ (s.refuse cause id : Except Failure ν) = .ok v := by
  unfold Site.refuse
  simp

/-! ## Resolution -/

namespace Context

variable {α : Type} [Scalar α] {ctx ctx' : Context α} {site site' : Site}

/-- The value of a resolved expression settles as constants become known. -/
theorem eval_folding_settles (h : ctx.Below ctx') (e : Expr) :
    Settles EvalError.IsStuck (e.eval ctx.folding) (e.eval ctx'.folding) := by
  have hcall (name : Datum) (xs : List (Value α)) :
      Settles EvalError.IsStuck (ctx.folding.call name xs) (ctx'.folding.call name xs) := by
    simp only [folding, Environment.call, h.functions]
    exact Settles.refl _
  have hrules : ctx.folding.rules = ctx'.folding.rules := rfl
  refine Expr.eval_settles hrules (fun id => ?_) hcall e
  simp only [folding, lookup]
  cases hid : ctx.constants.get? id with
  | none => exact Or.inr ⟨_, ⟨id, rfl⟩, rfl⟩
  | some n =>
    rw [h.constants id n hid]
    exact Settles.refl _

/-- The integer that a resolved index is settles. -/
theorem evalResolvedIndex_settles (h : ctx.Below ctx') (hsite : site.Alike site')
    (written resolved : Expr) :
    Settles Failure.IsStuck (ctx.evalResolvedIndex site written resolved)
      (ctx'.evalResolvedIndex site' written resolved) := by
  unfold evalResolvedIndex
  rcases eval_folding_settles h resolved with heq | ⟨e, ⟨id, rfl⟩, heq⟩
  · rw [heq]
    refine Settles.of_eq ?_
    simp only [hsite.refuse]
  · rw [heq]
    exact Or.inr ⟨_, ⟨id, rfl⟩, rfl⟩

mutual

/-- The resolution of an expression settles if its empty slots do. -/
theorem resolve_settles (h : ctx.Below ctx') (hsite : site.Alike site') (e : Expr)
    (hslots : ∀ slot ∈ e.emptySlots,
      Settles Failure.IsStuck (ctx.selection site slot) (ctx'.selection site' slot)) :
    Settles Failure.IsStuck (ctx.resolve site e) (ctx'.resolve site' e) := by
  match e with
  | .literal _ => exact Settles.refl _
  | .var name =>
    refine Settles.of_eq ?_
    simp only [resolve, hsite.env]
  | .index name indices =>
    rw [resolve, resolve, hsite.env]
    split
    · exact Settles.of_eq (hsite.refuse _ _)
    · -- Only an empty slot looks at the sizes, which is where the two contexts may differ.
      refine Settles.bind (positionsOf_settles h hsite name.shown indices.length 0 indices ?_)
        fun ps _ => Settles.refl _
      exact hslots
  | .negate val =>
    rw [resolve, resolve]
    exact Settles.bind (resolve_settles h hsite val hslots) fun v _ => Settles.refl _
  | .add a b | .sub a b | .mul a b | .div a b | .pow a b =>
    rw [resolve, resolve]
    rw [Expr.emptySlots] at hslots
    refine Settles.bind (resolve_settles h hsite a fun slot hmem =>
      hslots slot (List.mem_append_left _ hmem)) fun x _ => ?_
    exact Settles.bind (resolve_settles h hsite b fun slot hmem =>
      hslots slot (List.mem_append_right _ hmem)) fun y _ => Settles.refl _
  | .call func arguments =>
    rw [resolve, resolve]
    exact Settles.bind (resolveAll_settles h hsite arguments hslots) fun es _ => Settles.refl _
  | .colon | .range _ _ | .ref _ | .refArray _ _ | .raw _ | .rawList _ =>
    rw [resolve, resolve]
    exact Settles.of_eq (hsite.refuse _ _)

/-- The resolution of expressions settles if their empty slots do. -/
theorem resolveAll_settles (h : ctx.Below ctx') (hsite : site.Alike site') (es : List Expr)
    (hslots : ∀ slot ∈ Expr.emptySlotsOfAll es,
      Settles Failure.IsStuck (ctx.selection site slot) (ctx'.selection site' slot)) :
    Settles Failure.IsStuck (ctx.resolveAll site es) (ctx'.resolveAll site' es) := by
  match es with
  | [] => exact Settles.refl _
  | e :: rest =>
    rw [resolveAll, resolveAll]
    rw [Expr.emptySlotsOfAll] at hslots
    refine Settles.bind (resolve_settles h hsite e fun slot hmem =>
      hslots slot (List.mem_append_left _ hmem)) fun x _ => ?_
    exact Settles.bind (resolveAll_settles h hsite rest fun slot hmem =>
      hslots slot (List.mem_append_right _ hmem)) fun y _ => Settles.refl _

/-- The positions that indices select settle if the empty slots do. -/
theorem positionsOf_settles (h : ctx.Below ctx') (hsite : site.Alike site') (name : String)
    (rank d : Nat) (es : List Expr)
    (hslots : ∀ slot ∈ Expr.indexSlots name rank d es,
      Settles Failure.IsStuck (ctx.selection site slot) (ctx'.selection site' slot)) :
    Settles Failure.IsStuck (ctx.positionsOf site name rank d es)
      (ctx'.positionsOf site' name rank d es) := by
  match es with
  | [] => exact Settles.refl _
  | .colon :: rest =>
    rw [positionsOf, positionsOf]
    rw [Expr.indexSlots] at hslots
    refine Settles.bind (hslots ⟨name, d, rank⟩ List.mem_cons_self) fun ps _ => ?_
    exact Settles.bind (positionsOf_settles h hsite name rank (d + 1) rest fun slot hmem =>
      hslots slot (List.mem_cons_of_mem _ hmem)) fun qs _ => Settles.refl _
  | .range a b :: rest =>
    rw [positionsOf, positionsOf]
    rw [Expr.indexSlots] at hslots
    refine Settles.bind (resolve_settles h hsite a fun slot hmem =>
      hslots slot (List.mem_append_left _ hmem)) fun x _ => ?_
    refine Settles.bind (evalResolvedIndex_settles h hsite a x) fun lo _ => ?_
    refine Settles.bind (resolve_settles h hsite b fun slot hmem =>
      hslots slot (List.mem_append_right _ (List.mem_append_left _ hmem))) fun y _ => ?_
    refine Settles.bind (evalResolvedIndex_settles h hsite b y) fun hi _ => ?_
    refine Settles.bind (Settles.refl _) fun ps _ => ?_
    exact Settles.bind (positionsOf_settles h hsite name rank (d + 1) rest fun slot hmem =>
      hslots slot (List.mem_append_right _ (List.mem_append_right _ hmem)))
      fun qs _ => Settles.refl _
  | .literal _ :: rest | .var _ :: rest | .index _ _ :: rest | .negate _ :: rest
  | .add _ _ :: rest | .sub _ _ :: rest | .mul _ _ :: rest | .div _ _ :: rest
  | .pow _ _ :: rest | .call _ _ :: rest | .ref _ :: rest | .refArray _ _ :: rest
  | .raw _ :: rest | .rawList _ :: rest =>
    rw [positionsOf, positionsOf]
    · rw [Expr.indexSlots] at hslots
      · refine Settles.bind (resolve_settles h hsite _ fun slot hmem =>
          hslots slot (List.mem_append_left _ hmem)) fun x _ => ?_
        refine Settles.bind (evalResolvedIndex_settles h hsite _ x) fun i _ => ?_
        exact Settles.bind (positionsOf_settles h hsite name rank (d + 1) rest fun slot hmem =>
          hslots slot (List.mem_append_right _ hmem)) fun qs _ => Settles.refl _
      all_goals simp
    all_goals simp

end

/-- The integer that an index is settles if its empty slots do. -/
theorem evalIndex_settles (h : ctx.Below ctx') (hsite : site.Alike site') (e : Expr)
    (hslots : ∀ slot ∈ e.emptySlots,
      Settles Failure.IsStuck (ctx.selection site slot) (ctx'.selection site' slot)) :
    Settles Failure.IsStuck (ctx.evalIndex site e) (ctx'.evalIndex site' e) := by
  unfold evalIndex
  refine Settles.bind (resolve_settles h hsite e hslots) fun resolved _ => ?_
  exact evalResolvedIndex_settles h hsite e resolved

/-- The identity on a left-hand side settles if the empty slots inside its indices do. -/
theorem resolveTarget_settles (h : ctx.Below ctx') (hsite : site.Alike site') (e : Expr)
    (hslots : ∀ slot ∈ e.targetSlots,
      Settles Failure.IsStuck (ctx.selection site slot) (ctx'.selection site' slot)) :
    Settles Failure.IsStuck (ctx.resolveTarget site e) (ctx'.resolveTarget site' e) := by
  cases e with
  | var name =>
    refine Settles.of_eq ?_
    simp only [resolveTarget, hsite.env, hsite.refuse]
  | index name indices =>
    refine Settles.bind (Settles.mapM fun e he => ?_) fun is _ => Settles.refl _
    exact evalIndex_settles h hsite e fun slot hslot =>
      hslots slot (Expr.mem_emptySlotsOfAll.mpr ⟨e, he, hslot⟩)
  | _ =>
    unfold resolveTarget
    exact Settles.of_eq (hsite.refuse _ _)

/-- The resolution of a distribution settles if the empty slots of its parts do. -/
theorem resolveDist_settles (h : ctx.Below ctx') (hsite : site.Alike site') (d : Dist)
    (hslots : ∀ slot ∈ Expr.emptySlotsOfAll d.parts,
      Settles Failure.IsStuck (ctx.selection site slot) (ctx'.selection site' slot)) :
    Settles Failure.IsStuck (ctx.resolveDist site d) (ctx'.resolveDist site' d) := by
  have hpart : ∀ e ∈ d.parts,
      Settles Failure.IsStuck (ctx.resolve site e) (ctx'.resolve site' e) := by
    intro e he
    exact resolve_settles h hsite e fun slot hslot =>
      hslots slot (Expr.mem_emptySlotsOfAll.mpr ⟨e, he, hslot⟩)
  unfold Dist.parts Dist.bounds at hpart hslots
  unfold resolveDist
  refine Settles.bind (Settles.optionMapM fun e he => hpart e (by simp [he])) fun lower _ => ?_
  refine Settles.bind (Settles.optionMapM fun e he => hpart e (by simp [he])) fun upper _ => ?_
  refine Settles.bind (resolveAll_settles h hsite d.params fun slot hslot => ?_)
    fun params _ => Settles.refl _
  obtain ⟨e, he, hslot⟩ := Expr.mem_emptySlotsOfAll.mp hslot
  exact hslots slot (Expr.mem_emptySlotsOfAll.mpr ⟨e, List.mem_append_left _ he, hslot⟩)

omit [Scalar α] in
/-- An explanation changes failures only. -/
@[simp] theorem explain_eq_ok {ν : Type} {ctx : Context α} {site : Site} {use : IndexUse}
    {x : Except Failure ν} {v : ν} : ctx.explain site use x = .ok v ↔ x = .ok v := by
  unfold explain
  split
  · split
    · simp [Site.refuse_ne_ok]
    · simp [Site.refuse_ne_ok]
  · rfl

end Context

end BayesGraph
