import BayesGraph.Proofs.AdmissibleResolution

/-!
# What is asked for while an expression is resolved

The resolution of an expression asks for its parts one after the other: for the resolved forms of
operands, for the values of indices, for the positions of slices and for the extents of arrays. Each
of them is a task, and a task asks for its own subtasks first. A resolution fails exactly if it
comes to a task that fails although its subtasks do not, and it fails with the error of that task.
-/

set_option autoImplicit false

namespace BayesGraph

open Outcome

/-- Something that is asked for while an expression is resolved. -/
inductive Task where
  /-- The resolved form of an expression. -/
  | expr (e : Expr)
  /-- The integer value of an index or of a loop bound. -/
  | index (e : Expr)
  /-- The positions from one bound to another. -/
  | slice (lo hi : Expr)
  /-- The length of dimension `d` of an array with `rank` indices. -/
  | extent (name : String) (d rank : Nat)
  /-- An array, which must not be a loop variable. -/
  | array (name : Datum)

/-- The operands and arguments of an expression, from left to right. -/
def Expr.operands : Expr → List Expr
  | .negate a => [a]
  | .add a b | .sub a b | .mul a b | .div a b | .pow a b => [a, b]
  | .call _ arguments => arguments
  | _ => []

namespace Task

/-- What an index slot asks for. -/
def ofSlot (name : String) (d rank : Nat) : Expr → Task
  | .colon => .extent name d rank
  | .range lo hi => .slice lo hi
  | e => .index e

/-- A slot without a slice is an index. -/
theorem ofSlot_of_not_slice {name : String} {d rank : Nat} {e : Expr} (h : e.isSlice = false) :
    ofSlot name d rank e = .index e := by
  cases e with
  | colon | range _ _ => cases h
  | _ => rfl

/-- What the index slots of an array ask for, from dimension `d` of `rank` on. -/
def ofSlots (name : String) (rank d : Nat) : List Expr → List Task
  | [] => []
  | e :: rest => ofSlot name d rank e :: ofSlots name rank (d + 1) rest

/-- What a task asks for first. -/
def subtasks : Task → List Task
  | .expr (.index name indices) => .array name :: ofSlots name.shown indices.length 0 indices
  | .expr e => e.operands.map .expr
  | .index e => [.expr e]
  | .slice lo hi => [.index lo, .index hi]
  | .extent _ _ _ | .array _ => []

/-- Is the task about checked expressions? -/
def Valid (s : Stmt) : Task → Prop
  | .expr e | .index e => e.check s false = .ok ()
  | .slice lo hi => lo.check s false = .ok () ∧ hi.check s false = .ok ()
  | .extent _ _ _ | .array _ => True

/-- The slots of a checked list are valid tasks. -/
theorem valid_ofSlots {s : Stmt} {name : String} {rank d : Nat} {es : List Expr}
    (h : Expr.checkAll s true es = .ok ()) : ∀ t ∈ ofSlots name rank d es, t.Valid s := by
  induction es generalizing d with
  | nil => simp [ofSlots]
  | cons e rest ih =>
    obtain ⟨⟨⟩, he, hrest⟩ := bind_eq_ok.mp h
    refine List.forall_mem_cons.mpr ⟨?_, ih hrest⟩
    match e with
    | .colon => exact trivial
    | .range a b =>
      rw [Expr.check, if_pos rfl] at he
      obtain ⟨⟨⟩, ha, hb⟩ := bind_eq_ok.mp he
      exact ⟨ha, hb⟩
    | .literal _ | .var _ | .index _ _ | .negate _ | .add _ _ | .sub _ _ | .mul _ _ | .div _ _
    | .pow _ _ | .call _ _ => exact Expr.check_of_not_slice rfl he
    | .ref _ | .refArray _ _ | .raw _ | .rawList _ => cases he

/-- The operands of a checked expression are checked. -/
theorem check_operands {s : Stmt} {e : Expr} (h : e.check s false = .ok ()) :
    ∀ a ∈ e.operands, a.check s false = .ok () := by
  match e with
  | .negate a => exact List.forall_mem_singleton.mpr h
  | .add a b | .sub a b | .mul a b | .div a b | .pow a b =>
    obtain ⟨⟨⟩, ha, hb⟩ := bind_eq_ok.mp h
    exact List.forall_mem_cons.mpr ⟨ha, List.forall_mem_singleton.mpr hb⟩
  | .call func arguments =>
    cases func with
    | text t =>
      rw [Expr.check] at h
      split at h
      · cases h
      · exact fun a ha => Expr.check_of_mem h ha
    | int _ | real _ | truth _ | nothing | list _ | record _ => cases h
  | .literal _ | .var _ | .colon | .range _ _ | .index _ _ | .ref _ | .refArray _ _ | .raw _
  | .rawList _ => simp [Expr.operands]

/-- The subtasks of a task about checked expressions are such tasks. -/
theorem Valid.subtasks {s : Stmt} {t : Task} (h : t.Valid s) : ∀ t' ∈ t.subtasks, t'.Valid s := by
  have hoperands : ∀ {e : Expr}, e.check s false = .ok () →
      ∀ t' ∈ e.operands.map Task.expr, t'.Valid s := fun he t' ht' => by
    obtain ⟨a, ha, rfl⟩ := List.mem_map.mp ht'
    exact check_operands he a ha
  match t with
  | .expr (.index name indices) => exact List.forall_mem_cons.mpr ⟨trivial, valid_ofSlots h⟩
  | .expr (.literal _) | .expr (.var _) | .expr .colon | .expr (.range _ _) | .expr (.negate _)
  | .expr (.add _ _) | .expr (.sub _ _) | .expr (.mul _ _) | .expr (.div _ _) | .expr (.pow _ _)
  | .expr (.call _ _) | .expr (.ref _) | .expr (.refArray _ _) | .expr (.raw _)
  | .expr (.rawList _) => exact hoperands h
  | .index e => exact List.forall_mem_singleton.mpr h
  | .slice lo hi => exact List.forall_mem_cons.mpr ⟨h.1, List.forall_mem_singleton.mpr h.2⟩
  | .extent _ _ _ | .array _ => exact fun _ ht' => absurd ht' List.not_mem_nil

end Task

namespace Task

/-- A number that descends from a task to its subtasks. -/
noncomputable def weight : Task → Nat
  | .expr e => 2 * sizeOf e
  | .index e => 2 * sizeOf e + 1
  | .slice lo hi => 2 * (sizeOf lo + sizeOf hi) + 2
  | .extent _ _ _ | .array _ => 0

/-- An operand is smaller than the expression. -/
theorem sizeOf_operand {e a : Expr} (h : a ∈ e.operands) : sizeOf a < sizeOf e := by
  cases e with
  | call func arguments =>
    have hlt : sizeOf a < sizeOf arguments := List.sizeOf_lt_of_mem h
    rw [Expr.call.sizeOf_spec]
    omega
  | negate | add | sub | mul | div | pow =>
    simp only [Expr.operands, List.mem_cons, List.not_mem_nil, or_false] at h
    rcases h with rfl | rfl <;> simp <;> omega
  | _ => cases h

/-- The slots of a list weigh less than the list. -/
theorem weight_of_slots {name : String} {rank d : Nat} {es : List Expr} {t : Task}
    (h : t ∈ ofSlots name rank d es) : t.weight < 2 * sizeOf es := by
  induction es generalizing d with
  | nil => cases h
  | cons e rest ih =>
    rw [List.cons.sizeOf_spec]
    rcases List.mem_cons.mp h with rfl | h
    · cases e <;> simp [ofSlot, weight] <;> omega
    · have hrest := ih h
      omega

/-- Subtasks weigh less. -/
theorem weight_of_subtask {t t' : Task} (h : t' ∈ t.subtasks) : t'.weight < t.weight := by
  have hoperands : ∀ {e : Expr}, t' ∈ e.operands.map Task.expr → t'.weight < 2 * sizeOf e := by
    intro e h
    obtain ⟨a, ha, rfl⟩ := List.mem_map.mp h
    exact Nat.mul_lt_mul_of_pos_left (sizeOf_operand ha) Nat.two_pos
  match t with
  | .expr (.index name indices) =>
    rw [weight, Expr.index.sizeOf_spec]
    rcases List.mem_cons.mp h with rfl | h
    · rw [weight]
      omega
    · have hslot := weight_of_slots h
      omega
  | .expr (.literal _) | .expr (.var _) | .expr .colon | .expr (.range _ _) | .expr (.negate _)
  | .expr (.add _ _) | .expr (.sub _ _) | .expr (.mul _ _) | .expr (.div _ _) | .expr (.pow _ _)
  | .expr (.call _ _) | .expr (.ref _) | .expr (.refArray _ _) | .expr (.raw _)
  | .expr (.rawList _) => exact hoperands h
  | .index e =>
    cases List.mem_singleton.mp h
    exact Nat.lt_succ_self _
  | .slice lo hi =>
    simp only [subtasks, List.mem_cons, List.not_mem_nil, or_false] at h
    rcases h with rfl | rfl <;> simp only [weight] <;> omega
  | .extent _ _ _ | .array _ => cases h

end Task

/-! ## Running tasks -/

namespace Context

variable {α : Type} [Scalar α]

/-- Does what a task asks for, up to the result. -/
def run (ctx : Context α) (site : Site) : Task → Except Failure Unit
  | .expr e => do
    let _ ← ctx.resolve site e
  | .index e => do
    let _ ← ctx.evalIndex site e
  | .slice lo hi => do
    let _ ← slicePositions (← ctx.evalIndex site lo) (← ctx.evalIndex site hi)
  | .extent name d rank => do
    let _ ← ctx.wholeDimension site name d rank
  | .array name =>
    if (site.env.value? name).isSome then site.refuse (.indexedLoopVariable name.shown) else .ok ()

/-- Does what tasks ask for, one after the other. -/
def runAll (ctx : Context α) (site : Site) (ts : List Task) : Except Failure Unit := do
  let _ ← ts.mapM (ctx.run site)

variable {ctx : Context α} {site : Site} {s : Stmt}

/-- A list of tasks runs its first one, and then the others. -/
theorem runAll_cons (t : Task) (ts : List Task) :
    ctx.runAll site (t :: ts) = (do ctx.run site t; ctx.runAll site ts) := by
  unfold runAll
  rw [List.mapM_cons]
  cases ctx.run site t with
  | error f => rfl
  | ok u => cases ts.mapM (ctx.run site) <;> rfl

/-- A list of tasks fails with the error of the first task that does. -/
theorem runAll_eq_error_iff {ts : List Task} {f : Failure} :
    ctx.runAll site ts = .error f ↔
      ∃ t, ComesTo (ctx.run site) ts t ∧ ctx.run site t = .error f := by
  unfold runAll
  exact discard_eq_error.trans mapM_eq_error_iff

/-- If a list of tasks succeeds, each of them does. -/
theorem run_of_runAll {ts : List Task} {u : Unit} (h : ctx.runAll site ts = .ok u) :
    ∀ t ∈ ts, ctx.run site t = .ok () := by
  intro t ht
  obtain ⟨us, hus, -⟩ := bind_eq_ok.mp h
  obtain ⟨⟨⟩, -, hu⟩ := exists_of_mapM hus ht
  exact hu

/-- To run the tasks of expressions is to resolve the expressions. -/
theorem runAll_expr (es : List Expr) :
    ctx.runAll site (es.map .expr) = (do let _ ← ctx.resolveAll site es) := by
  induction es with
  | nil => rfl
  | cons e rest ih =>
    rw [List.map_cons, runAll_cons, ih, resolveAll, run]
    cases ctx.resolve site e with
    | error f => rfl
    | ok e' => cases ctx.resolveAll site rest <;> rfl

/-- To run the tasks of slots is to find the positions that they select. -/
theorem runAll_ofSlots (name : String) (rank d : Nat) (es : List Expr) :
    ctx.runAll site (Task.ofSlots name rank d es) =
      (do let _ ← ctx.positionsOf site name rank d es) := by
  induction es generalizing d with
  | nil => rfl
  | cons e rest ih =>
    rw [Task.ofSlots, runAll_cons, ih]
    -- A slice is two tasks or a look at the sizes, and any other index is one task.
    by_cases hslice : e.isSlice = true
    · match e with
      | .colon =>
        rw [Task.ofSlot, positionsOf, run]
        cases ctx.wholeDimension site name d rank with
        | error f => rfl
        | ok ps => cases ctx.positionsOf site name rank (d + 1) rest <;> rfl
      | .range a b =>
        have hpositions : ctx.positionsOf site name rank d (.range a b :: rest) = (do
            let ps ← slicePositions (← ctx.evalIndex site a) (← ctx.evalIndex site b)
            return ps :: (← ctx.positionsOf site name rank (d + 1) rest)) := by
          rw [positionsOf]
          simp only [evalIndex, bind_assoc]
        rw [Task.ofSlot, hpositions, run]
        cases ctx.evalIndex site a with
        | error f => rfl
        | ok lo =>
          cases ctx.evalIndex site b with
          | error f => rfl
          | ok hi =>
            simp only [ok_bind]
            cases slicePositions lo hi with
            | error f => rfl
            | ok ps => cases ctx.positionsOf site name rank (d + 1) rest <;> rfl
      | .literal _ | .var _ | .index _ _ | .negate _ | .add _ _ | .sub _ _ | .mul _ _ | .div _ _
      | .pow _ _ | .call _ _ | .ref _ | .refArray _ _ | .raw _ | .rawList _ => cases hslice
    · have hslice := Bool.eq_false_iff.mpr hslice
      have hpositions : ctx.positionsOf site name rank d (e :: rest) = (do
          let i ← ctx.evalIndex site e
          return [i] :: (← ctx.positionsOf site name rank (d + 1) rest)) := by
        rw [positionsOf_cons hslice]
        simp only [evalIndex, bind_assoc]
      rw [Task.ofSlot_of_not_slice hslice, hpositions, run]
      cases ctx.evalIndex site e with
      | error f => rfl
      | ok i => cases ctx.positionsOf site name rank (d + 1) rest <;> rfl

/-- A checked expression asks for its subtasks, and for nothing else. -/
theorem run_expr {e : Expr} (h : e.check s false = .ok ()) :
    ctx.run site (.expr e) = ctx.runAll site (Task.expr e).subtasks := by
  cases e with
  | literal _ => rfl
  | var name =>
    rw [run, resolve]
    cases site.env.value? name <;> rfl
  | index name indices =>
    rw [run, resolve, Task.subtasks, runAll_cons, run, runAll_ofSlots]
    split
    · unfold Site.refuse
      cases site.source <;> rfl
    · cases ctx.positionsOf site name.shown indices.length 0 indices <;> rfl
  | negate a =>
    change _ = ctx.runAll site ([a].map .expr)
    rw [runAll_expr, run, resolve, resolveAll]
    cases ctx.resolve site a <;> rfl
  | add a b | sub a b | mul a b | div a b | pow a b =>
    change _ = ctx.runAll site ([a, b].map .expr)
    rw [runAll_expr, run, resolve, resolveAll, resolveAll]
    cases ctx.resolve site a with
    | error f => rfl
    | ok a' => cases ctx.resolve site b <;> rfl
  | call func arguments =>
    change _ = ctx.runAll site (arguments.map .expr)
    rw [runAll_expr, run, resolve]
    cases ctx.resolveAll site arguments <;> rfl
  | colon | range _ _ | ref _ | refArray _ _ | raw _ | rawList _ => cases h

/-- A task fails with the first subtask that does. -/
theorem run_of_subtasks {t : Task} (ht : t.Valid s) {f : Failure}
    (h : ctx.runAll site t.subtasks = .error f) : ctx.run site t = .error f := by
  match t with
  | .expr e => exact (run_expr ht).trans h
  | .index e =>
    obtain ⟨t, hcomes, ht⟩ := runAll_eq_error_iff.mp h
    cases List.mem_singleton.mp hcomes.mem
    rw [run, discard_eq_error, evalIndex, discard_eq_error.mp ht]
    rfl
  | .slice lo hi =>
    rw [Task.subtasks, runAll_cons, runAll_cons, run, run] at h
    rw [run]
    cases hlo : ctx.evalIndex site lo with
    | error f' => rw [hlo] at h; exact h
    | ok i =>
      rw [hlo] at h
      cases hhi : ctx.evalIndex site hi with
      | error f' => rw [hhi] at h; exact h
      | ok j => rw [hhi] at h; cases h
  | .extent _ _ _ | .array _ => cases h

/-- A task comes to another one, which is itself or is asked for by a subtask. -/
inductive Meets (ctx : Context α) (site : Site) : Task → Task → Prop
  | here (t : Task) : Meets ctx site t t
  | within {t t' x : Task} (hcomes : ComesTo (ctx.run site) t.subtasks t')
      (hrest : Meets ctx site t' x) : Meets ctx site t x

/-- A task fails with every task that it comes to and that fails. -/
theorem Meets.run_eq_error {t x : Task} (h : ctx.Meets site t x) (ht : t.Valid s) {f : Failure}
    (hx : ctx.run site x = .error f) : ctx.run site t = .error f := by
  induction h with
  | here => exact hx
  | within hcomes _ ih =>
    have ht' := ih (ht.subtasks _ hcomes.mem) hx
    exact run_of_subtasks ht (runAll_eq_error_iff.mpr ⟨_, hcomes, ht'⟩)

/-- If a task succeeds, so do all tasks that it comes to, whatever is known. -/
theorem Meets.run_eq_ok {ctx' : Context α} {t x : Task} (h : ctx'.Meets site t x)
    (ht : t.Valid s) (hrun : ctx.run site t = .ok ()) : ctx.run site x = .ok () := by
  induction h with
  | here => exact hrun
  | @within t t' x hcomes _ ih =>
    refine ih (ht.subtasks t' hcomes.mem) ?_
    cases hsubtasks : ctx.runAll site t.subtasks with
    | error f =>
      rw [run_of_subtasks ht hsubtasks] at hrun
      cases hrun
    | ok u => exact run_of_runAll hsubtasks t' hcomes.mem

/-- A task that fails comes to one that fails although its subtasks succeed. -/
theorem exists_meets {t : Task} (ht : t.Valid s) {f : Failure} (h : ctx.run site t = .error f) :
    ∃ x, ctx.Meets site t x ∧ x.Valid s ∧ ctx.run site x = .error f ∧
      ctx.runAll site x.subtasks = .ok () := by
  cases hsubtasks : ctx.runAll site t.subtasks with
  | ok u => exact ⟨t, .here t, ht, h, hsubtasks⟩
  | error f' =>
    obtain rfl : f' = f := Except.error.inj ((run_of_subtasks ht hsubtasks).symm.trans h)
    obtain ⟨t', hcomes, ht'⟩ := runAll_eq_error_iff.mp hsubtasks
    have hweight := Task.weight_of_subtask hcomes.mem
    obtain ⟨x, hx, hrest⟩ := exists_meets (ht.subtasks t' hcomes.mem) ht'
    exact ⟨x, .within hcomes hx, hrest⟩
termination_by t.weight

end Context

end BayesGraph
