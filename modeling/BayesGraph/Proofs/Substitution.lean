import BayesGraph.Proofs.Unrolling
import BayesGraph.Proofs.Walks

/-!
# Integers in place of loop variables

Inside a loop, a loop variable stands for an integer: whether the integer is looked up in the values
of the loop variables or has been written in place of the variable makes no difference to what an
expression resolves to. Only the texts of errors differ, because they show the statement as it is
written; `Kin` is the relation of two computations that agree up to these texts.
-/

set_option autoImplicit false

namespace BayesGraph

open Outcome

/-! ## Agreement up to the texts of errors -/

/-- What remains of a failure without its text: an error of evaluation, or nothing. -/
def Failure.kind : Failure → Option EvalError
  | .eval e => some e
  | _ => none

/-- Two computations with the same result, or with failures that differ at most in their texts. -/
def Kin {ν : Type} (x y : Except Failure ν) : Prop :=
  x.mapError Failure.kind = y.mapError Failure.kind

namespace Kin

variable {ν μ : Type} {x y : Except Failure ν}

/-- Every computation is kin to itself. -/
theorem refl (x : Except Failure ν) : Kin x x := rfl

/-- Computations that are kin have the same results. -/
theorem eq_ok_iff (h : Kin x y) {v : ν} : x = .ok v ↔ y = .ok v := by
  have hx : x.mapError Failure.kind = .ok v ↔ x = .ok v := mapError_eq_ok
  have hy : y.mapError Failure.kind = .ok v ↔ y = .ok v := mapError_eq_ok
  rw [← hx, ← hy, show x.mapError Failure.kind = y.mapError Failure.kind from h]

/-- Errors of evaluation have no text that depends on the statement. -/
theorem eq_error_iff (h : Kin x y) {e : EvalError} :
    x = .error (.eval e) ↔ y = .error (.eval e) := by
  unfold Kin at h
  cases x with
  | ok v =>
    have hy : y = .ok v := (eq_ok_iff h).mp rfl
    simp [hy]
  | error a =>
    cases y with
    | ok w => cases h
    | error b =>
      have hkind : a.kind = b.kind := Except.error.inj h
      cases a <;> cases b <;> simp_all [Failure.kind]

/-- Steps that are kin behind steps that are kin are sequences that are kin. -/
theorem bind {f g : ν → Except Failure μ} (h : Kin x y) (hfg : ∀ v, x = .ok v → Kin (f v) (g v)) :
    Kin (x >>= f) (y >>= g) := by
  unfold Kin at h
  cases x with
  | ok v =>
    have hy : y = .ok v := (eq_ok_iff h).mp rfl
    rw [hy]
    exact hfg v rfl
  | error a =>
    cases y with
    | ok w => cases h
    | error b =>
      have hkind : a.kind = b.kind := Except.error.inj h
      show Except.error a.kind = Except.error b.kind
      rw [hkind]

/-- Steps that are kin one by one are kin as lists of steps. -/
theorem mapM {f g : μ → Except Failure ν} {xs ys : List μ}
    (h : List.Forall₂ (fun a b => Kin (f a) (g b)) xs ys) : Kin (xs.mapM f) (ys.mapM g) := by
  induction h with
  | nil => exact refl _
  | cons hab _ ih =>
    rw [List.mapM_cons, List.mapM_cons]
    exact bind hab fun v _ => bind ih fun vs _ => refl _

/-- Optional steps are kin if they are so where there is something to do. -/
theorem optionMapM {f g : μ → Except Failure ν} {a : Option μ} {t : μ → μ}
    (h : ∀ b, a = some b → Kin (f b) (g (t b))) : Kin (a.mapM f) ((a.map t).mapM g) := by
  cases a with
  | none => exact refl _
  | some b =>
    rw [Option.map_some, Option.mapM_some, Option.mapM_some]
    exact bind (h b rfl) fun v _ => refl _

/-- All refusals are of one kind. -/
theorem refuse (s s' : Site) (cause cause' : Cause) (id id' : Option Identity) :
    Kin (s.refuse cause id : Except Failure ν) (s'.refuse cause' id') := by
  have hkind : ∀ (t : Site) (c : Cause) (j : Option Identity),
      (t.refuse c j : Except Failure ν).mapError Failure.kind = .error none := by
    intro t c j
    unfold Site.refuse
    cases t.source <;> rfl
  show _ = _
  rw [hkind, hkind]

end Kin

/-! ## Substitution -/

namespace Expr

mutual

/-- The expression with the integer `k` in place of the variable `i`. -/
def subst (i : String) (k : Int) : Expr → Expr
  | .var name => if name = .text i then .literal (.int k) else .var name
  | .range start stop => .range (subst i k start) (subst i k stop)
  | .index name indices => .index name (substAll i k indices)
  | .negate val => .negate (subst i k val)
  | .add a b => .add (subst i k a) (subst i k b)
  | .sub a b => .sub (subst i k a) (subst i k b)
  | .mul a b => .mul (subst i k a) (subst i k b)
  | .div a b => .div (subst i k a) (subst i k b)
  | .pow a b => .pow (subst i k a) (subst i k b)
  | .call func arguments => .call func (substAll i k arguments)
  | .literal val => .literal val
  | .colon => .colon
  | .ref id => .ref id
  | .refArray ids shape => .refArray ids shape
  | .raw object => .raw object
  | .rawList items => .rawList items

/-- The same for all expressions of a list. -/
def substAll (i : String) (k : Int) : List Expr → List Expr
  | [] => []
  | e :: rest => subst i k e :: substAll i k rest

end

mutual

/-- The names that are written with indices. -/
def indexedNames : Expr → List Datum
  | .index name indices => name :: indexedNamesOfAll indices
  | .negate val => indexedNames val
  | .range a b | .add a b | .sub a b | .mul a b | .div a b | .pow a b =>
    indexedNames a ++ indexedNames b
  | .call _ arguments => indexedNamesOfAll arguments
  | .literal _ | .var _ | .colon | .ref _ | .refArray _ _ | .raw _ | .rawList _ => []

/-- The names that are written with indices in a list of expressions. -/
def indexedNamesOfAll : List Expr → List Datum
  | [] => []
  | e :: rest => indexedNames e ++ indexedNamesOfAll rest

end

/-- In a list the substitution takes place in every member. -/
theorem substAll_eq_map (i : String) (k : Int) (es : List Expr) :
    substAll i k es = es.map (subst i k) := by
  induction es with
  | nil => rfl
  | cons e es ih => rw [substAll, ih, List.map_cons]

/-- The substitution does not turn an index into a slice, or back. -/
@[simp] theorem isSlice_subst (i : String) (k : Int) (e : Expr) :
    (e.subst i k).isSlice = e.isSlice := by
  cases e with
  | var name =>
    rw [subst]
    split <;> rfl
  | _ => rfl

/-- The indexed names in a list are those of its members. -/
theorem mem_indexedNamesOfAll {name : Datum} {es : List Expr} :
    name ∈ indexedNamesOfAll es ↔ ∃ e ∈ es, name ∈ e.indexedNames := by
  induction es with
  | nil => simp [indexedNamesOfAll]
  | cons e es ih => simp [indexedNamesOfAll, ih]

/-- A name that is not indexed in a list is not indexed in its members. -/
theorem not_mem_indexedNames_of_mem {name : Datum} {es : List Expr}
    (h : name ∉ indexedNamesOfAll es) : ∀ e ∈ es, name ∉ e.indexedNames :=
  fun e he hmem => h (mem_indexedNamesOfAll.mpr ⟨e, he, hmem⟩)

end Expr

/-- The value of the first loop variable hides those behind it. -/
theorem LoopValues.value?_cons (env : LoopValues) (i : String) (k : Int) (name : Datum) :
    LoopValues.value? ((i, k) :: env) name =
      if name = .text i then some k else env.value? name := by
  unfold LoopValues.value?
  by_cases h : name = .text i
  · simp [h]
  · simp [h]

/-! ## Resolution -/

namespace Context

variable {α : Type}

/-- Two contexts that differ at most in the names that count as defined, which errors only show. -/
structure Agrees (ctx ctx' : Context α) : Prop where
  constants : ctx.constants = ctx'.constants
  functions : ctx.functions = ctx'.functions
  shapeOf : ctx.shapeOf = ctx'.shapeOf

/-- A context agrees with itself. -/
theorem Agrees.refl (ctx : Context α) : ctx.Agrees ctx := ⟨rfl, rfl, rfl⟩

/-- Contexts agree in either order. -/
theorem Agrees.symm {ctx ctx' : Context α} (h : ctx.Agrees ctx') : ctx'.Agrees ctx :=
  ⟨h.constants.symm, h.functions.symm, h.shapeOf.symm⟩

/-- A context that agrees knows what the other one knows. -/
theorem Agrees.below {ctx ctx' : Context α} (h : ctx.Agrees ctx') : ctx.Below ctx' :=
  ⟨h.functions, h.constants ▸ Table.Le.refl _⟩

/-- Contexts that agree fold in the same environment. -/
theorem Agrees.folding {ctx ctx' : Context α} (h : ctx.Agrees ctx') :
    ctx.folding = ctx'.folding := by
  unfold Context.folding Context.lookup
  rw [h.functions, h.constants]

variable [Scalar α] {ctx ctx' : Context α} {site site' : Site} {i : String} {k : Int}

omit [Scalar α] in
/-- A whole dimension is the same in contexts that agree. -/
theorem wholeDimension_kin (h : ctx.Agrees ctx') (site site' : Site) (name : String)
    (d rank : Nat) :
    Kin (ctx.wholeDimension site name d rank) (ctx'.wholeDimension site' name d rank) := by
  unfold wholeDimension
  rw [h.shapeOf]
  refine Kin.bind (Kin.refl _) fun shape _ => ?_
  split
  · exact Kin.refuse _ _ _ _ _ _
  · exact Kin.refl _

/-- A resolved index is evaluated to the same number in contexts that agree. -/
theorem evalResolvedIndex_kin (h : ctx.Agrees ctx') (site site' : Site)
    (written written' resolved : Expr) :
    Kin (ctx.evalResolvedIndex site written resolved)
      (ctx'.evalResolvedIndex site' written' resolved) := by
  have hprint : ∀ (s : Site) (e : Expr) (f : String → Cause),
      ((do
        let text ← e.print
        s.refuse (f text)) : Except Failure Int).mapError Failure.kind = .error none := by
    intro s e f
    cases e.print with
    | error a => rfl
    | ok text => exact (Kin.refuse s s (f text) (f text) none none).trans (by
        unfold Site.refuse
        cases s.source <;> rfl)
  unfold evalResolvedIndex
  rw [h.folding]
  split
  · exact Kin.refuse _ _ _ _ _ _
  · exact Kin.refl _
  · refine Kin.bind (Kin.refl _) fun x _ => ?_
    cases Scalar.toInt? x with
    | some n => exact Kin.refl _
    | none =>
      show _ = _
      rw [hprint, hprint]

/-- An index that is no slice selects one position. -/
theorem positionsOf_cons {e : Expr} (he : e.isSlice = false) (name : String) (rank d : Nat)
    (rest : List Expr) : ctx.positionsOf site name rank d (e :: rest) = (do
      let i ← ctx.evalResolvedIndex site e (← ctx.resolve site e)
      return [i] :: (← ctx.positionsOf site name rank (d + 1) rest)) := by
  cases e with
  | colon => cases he
  | range a b => cases he
  | _ => rw [positionsOf] <;> simp

/-- A reference depends on which indices are slices, and not on the loop variable. -/
theorem reference_subst (name : String) (indices : List Expr) (positions : List (List Int)) :
    reference name (indices.map (Expr.subst i k)) positions = reference name indices positions := by
  have hany : (indices.map (Expr.subst i k)).any Expr.isSlice = indices.any Expr.isSlice := by
    rw [List.any_map]
    exact congrArg (fun f => indices.any f) (funext fun e => Expr.isSlice_subst i k e)
  unfold reference
  rw [hany, List.zip_map_left, List.filterMap_map]
  split
  · dsimp only
    congr 1
    refine List.filterMap_congr fun p _ => ?_
    simp
  · rfl

mutual

/-- An expression resolves alike with an integer in place of a loop variable of that value. -/
theorem resolve_subst (h : ctx.Agrees ctx') (henv : site.env = (i, k) :: site'.env) (e : Expr)
    (hindexed : .text i ∉ e.indexedNames) :
    Kin (ctx.resolve site e) (ctx'.resolve site' (e.subst i k)) := by
  match e with
  | .literal _ => exact Kin.refl _
  | .var name =>
    rw [Expr.subst, resolve, henv, LoopValues.value?_cons]
    by_cases hname : name = .text i
    · rw [if_pos hname, if_pos hname, resolve]
      exact Kin.refl _
    · rw [if_neg hname, if_neg hname, resolve]
      exact Kin.refl _
  | .index name indices =>
    rw [Expr.indexedNames, List.mem_cons, not_or] at hindexed
    -- The name of an array is looked up but not substituted, which is why it must not be the
    -- variable.
    have hname : site.env.value? name = site'.env.value? name := by
      rw [henv, LoopValues.value?_cons, if_neg (Ne.symm hindexed.1)]
    have hpositions := positionsOf_subst h henv name.shown indices.length 0 indices hindexed.2
    rw [Expr.subst, resolve, resolve, hname, Expr.substAll_eq_map, List.length_map]
    rw [Expr.substAll_eq_map] at hpositions
    split
    · exact Kin.refuse _ _ _ _ _ _
    · refine Kin.bind hpositions fun ps _ => ?_
      rw [reference_subst]
      exact Kin.refl _
  | .negate val =>
    rw [Expr.subst, resolve, resolve]
    exact Kin.bind (resolve_subst h henv val hindexed) fun v _ => Kin.refl _
  | .add a b | .sub a b | .mul a b | .div a b | .pow a b =>
    rw [Expr.indexedNames, List.mem_append, not_or] at hindexed
    rw [Expr.subst, resolve, resolve]
    refine Kin.bind (resolve_subst h henv a hindexed.1) fun x _ => ?_
    exact Kin.bind (resolve_subst h henv b hindexed.2) fun y _ => Kin.refl _
  | .call func arguments =>
    rw [Expr.subst, resolve, resolve]
    exact Kin.bind (resolveAll_subst h henv arguments hindexed) fun es _ => Kin.refl _
  | .colon | .range _ _ | .ref _ | .refArray _ _ | .raw _ | .rawList _ =>
    rw [Expr.subst, resolve, resolve]
    exact Kin.refuse _ _ _ _ _ _

/-- The same for the expressions of a list. -/
theorem resolveAll_subst (h : ctx.Agrees ctx') (henv : site.env = (i, k) :: site'.env)
    (es : List Expr) (hindexed : .text i ∉ Expr.indexedNamesOfAll es) :
    Kin (ctx.resolveAll site es) (ctx'.resolveAll site' (Expr.substAll i k es)) := by
  match es with
  | [] => exact Kin.refl _
  | e :: rest =>
    rw [Expr.indexedNamesOfAll, List.mem_append, not_or] at hindexed
    rw [Expr.substAll, resolveAll, resolveAll]
    refine Kin.bind (resolve_subst h henv e hindexed.1) fun x _ => ?_
    exact Kin.bind (resolveAll_subst h henv rest hindexed.2) fun y _ => Kin.refl _

/-- The same for the positions that indices select. -/
theorem positionsOf_subst (h : ctx.Agrees ctx') (henv : site.env = (i, k) :: site'.env)
    (name : String) (rank d : Nat) (es : List Expr)
    (hindexed : .text i ∉ Expr.indexedNamesOfAll es) :
    Kin (ctx.positionsOf site name rank d es)
      (ctx'.positionsOf site' name rank d (Expr.substAll i k es)) := by
  match es with
  | [] => exact Kin.refl _
  | .colon :: rest =>
    rw [Expr.substAll, Expr.subst, positionsOf, positionsOf]
    refine Kin.bind (wholeDimension_kin h _ _ _ _ _) fun ps _ => ?_
    exact Kin.bind (positionsOf_subst h henv name rank (d + 1) rest hindexed) fun qs _ =>
      Kin.refl _
  | .range a b :: rest =>
    rw [Expr.indexedNamesOfAll, Expr.indexedNames, List.mem_append, List.mem_append, not_or,
      not_or] at hindexed
    obtain ⟨⟨ha, hb⟩, hrest⟩ := hindexed
    rw [Expr.substAll, Expr.subst, positionsOf, positionsOf]
    refine Kin.bind (resolve_subst h henv a ha) fun x _ => ?_
    refine Kin.bind (evalResolvedIndex_kin h _ _ _ _ x) fun lo _ => ?_
    refine Kin.bind (resolve_subst h henv b hb) fun y _ => ?_
    refine Kin.bind (evalResolvedIndex_kin h _ _ _ _ y) fun hi _ => ?_
    refine Kin.bind (Kin.refl _) fun ps _ => ?_
    exact Kin.bind (positionsOf_subst h henv name rank (d + 1) rest hrest) fun qs _ => Kin.refl _
  | .literal _ :: rest | .var _ :: rest | .index _ _ :: rest | .negate _ :: rest
  | .add _ _ :: rest | .sub _ _ :: rest | .mul _ _ :: rest | .div _ _ :: rest
  | .pow _ _ :: rest | .call _ _ :: rest | .ref _ :: rest | .refArray _ _ :: rest
  | .raw _ :: rest | .rawList _ :: rest =>
    rw [Expr.indexedNamesOfAll, List.mem_append, not_or] at hindexed
    have hfirst := resolve_subst h henv _ hindexed.1
    have hothers := positionsOf_subst h henv name rank (d + 1) rest hindexed.2
    rw [Expr.substAll, positionsOf_cons rfl, positionsOf_cons (by rw [Expr.isSlice_subst]; rfl)]
    refine Kin.bind hfirst fun x _ => ?_
    refine Kin.bind (evalResolvedIndex_kin h _ _ _ _ x) fun n _ => ?_
    exact Kin.bind hothers fun qs _ => Kin.refl _

end

/-- An index has the same value with an integer in place of a loop variable. -/
theorem evalIndex_subst (h : ctx.Agrees ctx') (henv : site.env = (i, k) :: site'.env) {e : Expr}
    (hindexed : .text i ∉ e.indexedNames) :
    Kin (ctx.evalIndex site e) (ctx'.evalIndex site' (e.subst i k)) := by
  unfold evalIndex
  refine Kin.bind (resolve_subst h henv e hindexed) fun resolved _ => ?_
  exact evalResolvedIndex_kin h _ _ _ _ resolved

/-- The bounds of a loop are the same after the substitution. -/
theorem evalBounds_subst (h : ctx.Agrees ctx') (henv : site.env = (i, k) :: site'.env)
    {start stop : Expr} (hstart : .text i ∉ start.indexedNames)
    (hstop : .text i ∉ stop.indexedNames) :
    Kin (ctx.evalBounds site start stop)
      (ctx'.evalBounds site' (start.subst i k) (stop.subst i k)) := by
  unfold evalBounds
  refine Kin.bind (evalIndex_subst h henv hstart) fun lo _ => ?_
  exact Kin.bind (evalIndex_subst h henv hstop) fun hi _ => Kin.refl _

/-- The target is the same after the substitution. -/
theorem resolveTarget_subst (h : ctx.Agrees ctx') (henv : site.env = (i, k) :: site'.env)
    (lhs : Expr) (hindexed : .text i ∉ lhs.indexedNames) :
    Kin (ctx.resolveTarget site lhs) (ctx'.resolveTarget site' (lhs.subst i k)) := by
  cases lhs with
  | var name =>
    unfold Expr.subst resolveTarget
    dsimp only
    rw [henv, LoopValues.value?_cons]
    by_cases hname : name = .text i
    · rw [if_pos hname, if_pos hname]
      exact Kin.refuse _ _ _ _ _ _
    · rw [if_neg hname, if_neg hname]
      dsimp only
      split
      · exact Kin.refuse _ _ _ _ _ _
      · exact Kin.refl _
  | index name indices =>
    rw [Expr.indexedNames, List.mem_cons, not_or] at hindexed
    have hindices := Expr.not_mem_indexedNames_of_mem hindexed.2
    rw [Expr.subst, Expr.substAll_eq_map, resolveTarget, resolveTarget]
    refine Kin.bind (Kin.mapM ?_) fun is _ => Kin.refl _
    rw [List.forall₂_map_right_iff, List.forall₂_same]
    exact fun e he => evalIndex_subst h henv (hindices e he)
  | _ =>
    unfold Expr.subst resolveTarget
    exact Kin.refuse _ _ _ _ _ _

end Context

/-! ## Statements -/

/-- The distribution with the integer `k` in place of the variable `i`. -/
def Dist.subst (i : String) (k : Int) (d : Dist) : Dist where
  name := d.name
  params := Expr.substAll i k d.params
  lower := d.lower.map (Expr.subst i k)
  upper := d.upper.map (Expr.subst i k)

namespace Law

/-- The right of a stochastic statement with the integer `k` in place of the variable `i`. -/
def subst (i : String) (k : Int) : Law → Law
  | .dist d => .dist (d.subst i k)
  | .raw object => .raw object

/-- The names that are written with indices. -/
def indexedNames : Law → List Datum
  | .dist d => Expr.indexedNamesOfAll d.parts
  | .raw _ => []

end Law

namespace Stmt

mutual

/-- The statement with the integer `k` in place of the variable `i`, everywhere. -/
def subst (i : String) (k : Int) : Stmt → Stmt
  | .sample comment lhs law => .sample comment (lhs.subst i k) (law.subst i k)
  | .assign comment lhs rhs => .assign comment (lhs.subst i k) (rhs.subst i k)
  | .loop comment var sequence body =>
    .loop comment var (sequence.subst i k) (substAll i k body)
  | .raw object => .raw object

/-- The same for all statements of a list. -/
def substAll (i : String) (k : Int) : List Stmt → List Stmt
  | [] => []
  | s :: rest => subst i k s :: substAll i k rest

end

mutual

/-- The names that are written with indices in a statement and in its body. -/
def indexedNames : Stmt → List Datum
  | .sample _ lhs law => lhs.indexedNames ++ law.indexedNames
  | .assign _ lhs rhs => lhs.indexedNames ++ rhs.indexedNames
  | .loop _ _ sequence body => sequence.indexedNames ++ indexedNamesOfAll body
  | .raw _ => []

/-- The names that are written with indices in the statements of a list. -/
def indexedNamesOfAll : List Stmt → List Datum
  | [] => []
  | s :: rest => indexedNames s ++ indexedNamesOfAll rest

end

/-- In a list the substitution takes place in every statement. -/
theorem substAll_eq_map (i : String) (k : Int) (ss : List Stmt) :
    substAll i k ss = ss.map (subst i k) := by
  induction ss with
  | nil => rfl
  | cons s ss ih => rw [substAll, ih, List.map_cons]

/-- The indexed names in a list are those of its statements. -/
theorem mem_indexedNamesOfAll {name : Datum} {ss : List Stmt} :
    name ∈ indexedNamesOfAll ss ↔ ∃ s ∈ ss, name ∈ s.indexedNames := by
  induction ss with
  | nil => simp [indexedNamesOfAll]
  | cons s ss ih => simp [indexedNamesOfAll, ih]

/-- The loop variables in a list are those of its statements. -/
theorem mem_loopNamesOfAll {name : Datum} {ss : List Stmt} :
    name ∈ loopNamesOfAll ss ↔ ∃ s ∈ ss, name ∈ s.loopNames := by
  induction ss with
  | nil => simp [loopNamesOfAll]
  | cons s ss ih => simp [loopNamesOfAll, ih]

end Stmt

/-! ## Written forms

The text of an instance differs, but a statement has a written form exactly if it has one after the
substitution. -/

namespace Expr

/-- An expression that has to be a text is one after the substitution, too. -/
theorem requireText_subst (i : String) (k : Int) (e : Expr) :
    (e.subst i k).requireText.isOk = e.requireText.isOk := by
  cases e with
  | var name =>
    rw [subst]
    by_cases hname : name = .text i
    · rw [if_pos hname, hname]
      rfl
    · rw [if_neg hname]
  | _ => rfl

/-- The substitution leaves an operator an operator. -/
theorem precedence_subst (i : String) (k : Int) (e : Expr) :
    (e.subst i k).precedence.isOk = e.precedence.isOk := by
  cases e with
  | var name =>
    rw [subst]
    by_cases hname : name = .text i
    · rw [if_pos hname]
      simp only [precedence, Datum.isNegative?]
      cases decide (k < 0) <;> rfl
    · rw [if_neg hname]
  | _ => rfl

/-- An expression has a text in parentheses exactly if it has one after the substitution. -/
theorem parenthesized_subst (i : String) (k : Int) (e : Expr) (text text' : String)
    (least : Nat) :
    (parenthesized (e.subst i k) text least).isOk = (parenthesized e text' least).isOk := by
  refine isOk_bind_congr (precedence_subst i k e) fun p q => ?_
  split <;> split <;> rfl

mutual

/-- An expression has a written form exactly if it has one after the substitution. -/
theorem print_subst (i : String) (k : Int) (e : Expr) :
    (e.subst i k).print.isOk = e.print.isOk := by
  match e with
  | .var name =>
    rw [subst]
    by_cases hname : name = .text i
    · rw [if_pos hname]
      rfl
    · rw [if_neg hname]
  | .range a b =>
    rw [subst, print, print]
    refine isOk_bind_congr (print_subst i k a) fun _ _ => ?_
    exact isOk_bind_congr (print_subst i k b) fun _ _ => rfl
  | .index name indices =>
    rw [subst, print, print]
    exact isOk_bind_congr (printAll_subst i k indices) fun _ _ => rfl
  | .negate val =>
    rw [subst, print, print]
    refine isOk_bind_congr (print_subst i k val) fun _ _ => ?_
    exact isOk_bind_congr (parenthesized_subst i k val _ _ _) fun _ _ => rfl
  | .add a b | .sub a b | .mul a b | .div a b | .pow a b =>
    rw [subst, print, print]
    refine isOk_bind_congr (print_subst i k a) fun _ _ => ?_
    refine isOk_bind_congr (parenthesized_subst i k a _ _ _) fun _ _ => ?_
    refine isOk_bind_congr (print_subst i k b) fun _ _ => ?_
    exact isOk_bind_congr (parenthesized_subst i k b _ _ _) fun _ _ => rfl
  | .call func arguments =>
    rw [subst, print, print]
    exact isOk_bind_congr (printAll_subst i k arguments) fun _ _ => rfl
  | .literal _ | .colon | .ref _ | .refArray _ _ | .raw _ | .rawList _ => rfl

/-- The same for the items of a list. -/
theorem printAll_subst (i : String) (k : Int) (es : List Expr) :
    (printAll (substAll i k es)).isOk = (printAll es).isOk := by
  match es with
  | [] => rfl
  | e :: rest =>
    rw [substAll, printAll, printAll]
    refine isOk_bind_congr (print_subst i k e) fun _ _ => ?_
    refine isOk_bind_congr (printAll_subst i k rest) fun _ _ => ?_
    exact isOk_bind_congr (requireText_subst i k e) fun _ _ => rfl

end

end Expr

/-- A distribution has a text exactly if it has one after the substitution. -/
theorem Dist.print_subst (i : String) (k : Int) (d : Dist) :
    (d.subst i k).print.isOk = d.print.isOk := by
  have hbound : ∀ bound : Option Expr,
      (printBound (bound.map (Expr.subst i k))).isOk = (printBound bound).isOk := by
    intro bound
    cases bound with
    | none => rfl
    | some e => exact Expr.print_subst i k e
  have htruncated : (d.subst i k).truncated = d.truncated := by
    simp [truncated, subst]
  unfold print
  rw [htruncated]
  refine isOk_bind_congr (Expr.printAll_subst i k d.params) fun _ _ => ?_
  dsimp only
  split
  · refine isOk_bind_congr (hbound d.lower) fun _ _ => ?_
    exact isOk_bind_congr (hbound d.upper) fun _ _ => rfl
  · rfl

/-- An instance has a text exactly if it has one after the substitution. -/
theorem Stmt.source_subst (i : String) (k : Int) (s : Stmt) (env env' : LoopValues) :
    ((s.subst i k).source env').isOk = (s.source env).isOk := by
  have hfinish : ∀ head head' : String,
      (if env'.isEmpty then (return head : Except Malformed String)
        else return head ++ " with "
          ++ ", ".intercalate (env'.map fun e => e.1 ++ " = " ++ toString e.2)).isOk =
      (if env.isEmpty then (return head' : Except Malformed String)
        else return head' ++ " with "
          ++ ", ".intercalate (env.map fun e => e.1 ++ " = " ++ toString e.2)).isOk := by
    intro head head'
    split <;> split <;> rfl
  have hmap : ∀ (x y : Except Malformed String), x.isOk = y.isOk →
      (x.map Text.firstLine).isOk = (y.map Text.firstLine).isOk := by
    intro x y h
    cases x <;> cases y <;> first | rfl | cases h
  cases s with
  | sample comment lhs law =>
    refine isOk_bind_congr (hmap _ _ ?_) hfinish
    refine isOk_bind_congr (Expr.print_subst i k lhs) fun _ _ => ?_
    refine isOk_bind_congr ?_ fun _ _ => rfl
    cases law with
    | dist d => exact Dist.print_subst i k d
    | raw object => rfl
  | assign comment lhs rhs =>
    refine isOk_bind_congr (hmap _ _ ?_) hfinish
    refine isOk_bind_congr (Expr.print_subst i k lhs) fun _ _ => ?_
    exact isOk_bind_congr (Expr.print_subst i k rhs) fun _ _ => rfl
  | loop comment var sequence body => exact isOk_bind_congr rfl hfinish
  | raw object => exact isOk_bind_congr rfl hfinish

end BayesGraph
