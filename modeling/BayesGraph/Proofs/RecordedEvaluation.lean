import BayesGraph.Dual
import BayesGraph.Proofs.WrittenForms

/-!
# What an evaluation reads

The evaluator asks its environment for the values of identities and for calls of functions. Here it
is run in any monad that these two answers may use (`Expr.evalIn`). In the monad of results it is
`Expr.eval`. With answers that are written down as they are given, it has the same result and leaves
the list of what it asked for (`Expr.record`).

An evaluation that completes has looked up the references of its expression, in the order in which
`Expr.refs` lists them, and has called the functions that `Expr.calls` names; one that fails has
looked up a front part of the references. Since nothing else is read, lookups that agree on the
references give the same result, whether this is a value or an error (`Expr.eval_reads`).
-/

set_option autoImplicit false

namespace BayesGraph

open Outcome

/-- What an evaluation asks of its environment. -/
inductive Access where
  | lookup (id : Identity)
  | call (name : Datum)

namespace Access

/-- The identity that is looked up. -/
def identity? : Access → Option Identity
  | .lookup id => some id
  | .call _ => none

/-- The name of the function that is called. -/
def function? : Access → Option Datum
  | .lookup _ => none
  | .call name => some name

/-- The identities that are looked up, in order and with repetitions. -/
def identities (trace : List Access) : List Identity := trace.filterMap identity?

/-- The names of the functions that are called, in order and with repetitions. -/
def functions (trace : List Access) : List Datum := trace.filterMap function?

variable {trace trace' : List Access}

/-- The identities of two traces behind each other. -/
@[simp] theorem identities_append :
    identities (trace ++ trace') = identities trace ++ identities trace' :=
  List.filterMap_append

/-- The functions of two traces behind each other. -/
@[simp] theorem functions_append :
    functions (trace ++ trace') = functions trace ++ functions trace' :=
  List.filterMap_append

end Access

namespace Expr

/-! ## Evaluation in a monad -/

section Monadic

variable {α : Type} [Scalar α] {m : Type → Type} [Monad m] [MonadLiftT (Except EvalError) m]

mutual

/-- The value of a resolved expression, where looking up an identity and calling a function are
steps of a monad in which computations can fail. -/
def evalIn (rules : Rules) (lookup : Identity → m (Value α))
    (call : Datum → List (Value α) → m (Value α)) : Expr → m (Value α)
  | .literal val => pure val.value
  | .ref id => lookup id
  | .refArray ids shape => do
    let vs ← ids.mapM fun id => do
      let v ← lookup id
      let t ← (v.toTensor : Except EvalError (Tensor α))
      return Value.array rules t
    (Value.block rules vs shape : Except EvalError (Value α))
  | .negate val => do
    let x ← evalIn rules lookup call val
    (x.negate : Except EvalError (Value α))
  | .add left right => do
    let x ← evalIn rules lookup call left
    let y ← evalIn rules lookup call right
    (x.add y : Except EvalError (Value α))
  | .sub left right => do
    let x ← evalIn rules lookup call left
    let y ← evalIn rules lookup call right
    (x.sub y : Except EvalError (Value α))
  | .mul left right => do
    let x ← evalIn rules lookup call left
    let y ← evalIn rules lookup call right
    (x.mul y : Except EvalError (Value α))
  | .div num den => do
    let x ← evalIn rules lookup call num
    let y ← evalIn rules lookup call den
    (x.divide rules y : Except EvalError (Value α))
  | .pow base exponent => do
    let x ← evalIn rules lookup call base
    let y ← evalIn rules lookup call exponent
    (x.power rules y : Except EvalError (Value α))
  | .call func arguments => do
    let xs ← evalAllIn rules lookup call arguments
    call func xs
  | .var _ | .colon | .range _ _ | .index _ _ | .raw _ | .rawList _ =>
    liftM (.error .unevaluable : Except EvalError (Value α))

/-- The values of the expressions of a list. -/
def evalAllIn (rules : Rules) (lookup : Identity → m (Value α))
    (call : Datum → List (Value α) → m (Value α)) : List Expr → m (List (Value α))
  | [] => pure []
  | e :: rest => do
    let v ← evalIn rules lookup call e
    let vs ← evalAllIn rules lookup call rest
    return v :: vs

end

end Monadic

section Direct

variable {α : Type} [Scalar α] {env : Environment α}

mutual

/-- In the monad of results, this is the evaluator. -/
theorem evalIn_eq_eval (e : Expr) :
    e.evalIn (m := Except EvalError) env.rules env.lookup env.call = e.eval env := by
  match e with
  | .literal _ | .ref _ | .refArray _ _ | .var _ | .colon | .range _ _ | .index _ _ | .raw _
  | .rawList _ => rfl
  | .negate val =>
    rw [evalIn, evalIn_eq_eval val, eval]
    rfl
  | .add left right | .sub left right | .mul left right | .div left right | .pow left right =>
    rw [evalIn, evalIn_eq_eval left, evalIn_eq_eval right, eval]
    rfl
  | .call func arguments =>
    rw [evalIn, evalAllIn_eq_evalAll arguments, eval]

/-- Evaluated without a record, a list of expressions has its values. -/
theorem evalAllIn_eq_evalAll (es : List Expr) :
    evalAllIn (m := Except EvalError) env.rules env.lookup env.call es = evalAll env es := by
  match es with
  | [] => rfl
  | e :: rest =>
    rw [evalAllIn, evalIn_eq_eval e, evalAllIn_eq_evalAll rest, evalAll]

end

end Direct

end Expr

/-! ## Recorded evaluation -/

/-- Computations that can fail and that write down what they ask for. -/
abbrev Recorder (β : Type) : Type := ExceptT EvalError (StateM (List Access)) β

namespace Recorder

variable {β γ : Type}

/-- Writes an access down and then gives the answer to it. -/
def answer (access : Access) (result : Except EvalError β) : Recorder β := do
  modify (· ++ [access])
  result

/-- The result of a computation, and the accesses so far with its own behind them. -/
def outcome (x : Recorder β) (log : List Access) : Except EvalError β × List Access :=
  (x.run.run log).run

/-- The recorded computation has the given result and looks up a front part of the identities. If it
completes, it looks up all of them, in order, and calls the functions of the given names. -/
def Records (x : Recorder β) (result : Except EvalError β) (ids : List Identity)
    (names : List Datum) : Prop :=
  ∀ log, ∃ trace, x.outcome log = (result, log ++ trace) ∧ Access.identities trace <+: ids ∧
    ((∃ b, result = .ok b) → Access.identities trace = ids ∧ (Access.functions trace).Perm names)

variable {x : Recorder β} {f : β → Recorder γ} {r : Except EvalError β}
  {g : β → Except EvalError γ} {ids ids' : List Identity} {names names' : List Datum}

/-- A step that asks for nothing. -/
theorem records_lift (r : Except EvalError β) : Records (r : Recorder β) r [] [] := by
  intro log
  refine ⟨[], ?_, List.prefix_rfl, fun _ => ⟨rfl, .refl _⟩⟩
  rw [List.append_nil]
  cases r <;> rfl

/-- A result that is there already is recorded without any access. -/
theorem records_pure (b : β) : Records (pure b : Recorder β) (pure b) [] [] := records_lift (.ok b)

/-- A lookup is recorded as the only access. -/
theorem records_lookup (id : Identity) (r : Except EvalError β) :
    Records (answer (.lookup id) r) r [id] [] := by
  intro log
  refine ⟨[.lookup id], ?_, List.prefix_rfl, fun _ => ⟨rfl, .refl _⟩⟩
  cases r <;> rfl

/-- A call is recorded as the only access. -/
theorem records_call (name : Datum) (r : Except EvalError β) :
    Records (answer (.call name) r) r [] [name] := by
  intro log
  refine ⟨[.call name], ?_, List.prefix_rfl, fun _ => ⟨rfl, .refl _⟩⟩
  cases r <;> rfl

/-- A sequence ends where its first step fails. -/
theorem outcome_bind (x : Recorder β) (f : β → Recorder γ) (log : List Access) :
    (x >>= f).outcome log = match x.outcome log with
      | (.ok b, log') => (f b).outcome log'
      | (.error e, log') => (.error e, log') := by
  simp only [outcome, ExceptT.run_bind, StateT.run_bind, Id.run_bind]
  rcases (x.run.run log).run with ⟨result, log'⟩
  cases result with
  | ok b => rfl
  | error e => rfl

/-- A sequence asks for what its steps ask for. -/
theorem Records.bind (hx : Records x r ids names)
    (hf : ∀ b, r = .ok b → Records (f b) (g b) ids' names') :
    Records (x >>= f) (r >>= g) (ids ++ ids') (names ++ names') := by
  intro log
  obtain ⟨trace, houtcome, hprefix, hcomplete⟩ := hx log
  rw [outcome_bind, houtcome]
  cases r with
  | error e =>
    refine ⟨trace, rfl, hprefix.trans (List.prefix_append ids ids'), ?_⟩
    rintro ⟨_, h⟩
    cases h
  | ok b =>
    obtain ⟨hids, hnames⟩ := hcomplete ⟨b, rfl⟩
    obtain ⟨trace', houtcome', hprefix', hcomplete'⟩ := hf b rfl (log ++ trace)
    refine ⟨trace ++ trace', ?_, ?_, ?_⟩
    · rw [← List.append_assoc]
      exact houtcome'
    · rw [Access.identities_append, hids]
      exact (List.prefix_append_right_inj ids).mpr hprefix'
    · intro hresult
      obtain ⟨hids', hnames'⟩ := hcomplete' hresult
      rw [Access.identities_append, Access.functions_append, hids, hids']
      exact ⟨rfl, hnames.append hnames'⟩

/-- The order of the calls is left open. -/
theorem Records.perm (h : Records x r ids names) (hnames : names.Perm names') :
    Records x r ids names' := by
  intro log
  obtain ⟨trace, houtcome, hprefix, hcomplete⟩ := h log
  refine ⟨trace, houtcome, hprefix, fun hresult => ?_⟩
  obtain ⟨hids, hcalls⟩ := hcomplete hresult
  exact ⟨hids, hcalls.trans hnames⟩

/-- Steps one after the other, each of which looks up one identity. -/
theorem records_mapM {step : Identity → Recorder β} {result : Identity → Except EvalError β}
    (hstep : ∀ id, Records (step id) (result id) [id] []) (ids : List Identity) :
    Records (ids.mapM step) (ids.mapM result) ids [] := by
  induction ids with
  | nil => exact records_pure []
  | cons id rest ih =>
    rw [List.mapM_cons, List.mapM_cons]
    have hrest (b : β) := ih.bind fun bs _ => records_pure (b :: bs)
    simp only [List.append_nil] at hrest
    exact (hstep id).bind fun b _ => hrest b

end Recorder

namespace Expr

open Recorder

variable {α : Type} [Scalar α] {env : Environment α}

/-- The evaluation of an expression in which every answer of the environment is written down. -/
def recorder (env : Environment α) (e : Expr) : Recorder (Value α) :=
  e.evalIn env.rules (fun id => answer (.lookup id) (env.lookup id))
    fun name xs => answer (.call name) (env.call name xs)

/-- The result of an evaluation, and what it asked its environment for. -/
def record (env : Environment α) (e : Expr) : Except EvalError (Value α) × List Access :=
  (e.recorder env).outcome []

/-- The values of several expressions, with every answer of the environment written down. -/
def recorderAll (env : Environment α) (es : List Expr) : Recorder (List (Value α)) :=
  evalAllIn env.rules (fun id => answer (.lookup id) (env.lookup id))
    (fun name xs => answer (.call name) (env.call name xs)) es

omit [Scalar α] in
/-- An operation asks for what its operands ask for, the left one first. -/
theorem records_operation {x y : Recorder (Value α)} {left right : Except EvalError (Value α)}
    {op : Value α → Value α → Except EvalError (Value α)} {ids ids' : List Identity}
    {names names' : List Datum} (hx : Records x left ids names)
    (hy : Records y right ids' names') :
    Records (do let a ← x; let b ← y; (op a b : Except EvalError (Value α)))
      (do let a ← left; let b ← right; op a b) (ids ++ ids') (names ++ names') := by
  have hstep (a : Value α) := hy.bind fun b _ => records_lift (op a b)
  simp only [List.append_nil] at hstep
  exact hx.bind fun a _ => hstep a

mutual

/-- An evaluation looks up the references of its expression and calls its functions. -/
theorem records_recorder (e : Expr) {ids : List Identity} (h : e.refs = .ok ids) :
    Records (e.recorder env) (e.eval env) ids e.calls := by
  match e with
  | .literal val =>
    cases h
    exact records_pure val.value
  | .ref id =>
    cases h
    exact records_lookup id (env.lookup id)
  | .refArray refs shape =>
    cases h
    have helement (id : Identity) :=
      (records_lookup id (env.lookup id)).bind fun v _ =>
        (records_lift v.toTensor).bind fun t _ => records_pure (Value.array env.rules t)
    have hblock := (records_mapM helement ids).bind fun vs _ =>
      records_lift (Value.block env.rules vs shape)
    rw [List.append_nil] at hblock
    exact hblock
  | .negate val =>
    rw [refs] at h
    have hval := (records_recorder val h).bind fun x _ => records_lift x.negate
    simp only [List.append_nil] at hval
    exact hval
  | .add a b | .sub a b | .mul a b | .div a b | .pow a b =>
    simp only [refs, bind_eq_ok, pure_eq_ok] at h
    obtain ⟨left, hleft, right, hright, rfl⟩ := h
    exact records_operation (records_recorder a hleft) (records_recorder b hright)
  | .call func arguments =>
    rw [refs] at h
    have hcall := (records_recorderAll arguments h).bind fun xs _ =>
      records_call func (env.call func xs)
    rw [List.append_nil] at hcall
    exact hcall.perm List.perm_append_comm
  | .var _ | .colon | .range _ _ | .index _ _ | .raw _ | .rawList _ => cases h

/-- The recorded evaluation of a list has its values, and reads its references. -/
theorem records_recorderAll (es : List Expr) {ids : List Identity} (h : refsOfAll es = .ok ids) :
    Records (recorderAll env es) (evalAll env es) ids (callsOfAll es) := by
  match es with
  | [] =>
    cases h
    exact records_pure []
  | e :: rest =>
    simp only [refsOfAll, bind_eq_ok, pure_eq_ok] at h
    obtain ⟨first, hfirst, others, hothers, rfl⟩ := h
    have hrest (v : Value α) :=
      (records_recorderAll rest hothers).bind fun vs _ => records_pure (v :: vs)
    simp only [List.append_nil] at hrest
    exact (records_recorder e hfirst).bind fun v _ => hrest v

end

/-- The references of a ground expression are what its evaluation reads. Lookups that agree on them
give the same value or the same error. A recorded evaluation has the result of the evaluation and
has looked up a front part of the references. If the evaluation completes, all of them have been
looked up, in order, and the functions that have been called are those that the expression calls. -/
theorem eval_reads {e : Expr} (hground : e.Ground) :
    ∃ ids, e.refs = .ok ids ∧
      (∀ (rules : Rules) (mode : CallMode) (functions : FunctionTable α)
          (l l' : Identity → Except EvalError (Value α)), (∀ id ∈ ids, l id = l' id) →
        e.eval ⟨rules, mode, functions, l⟩ = e.eval ⟨rules, mode, functions, l'⟩) ∧
      ∀ env : Environment α, (e.record env).1 = e.eval env ∧
        Access.identities (e.record env).2 <+: ids ∧
        ∀ v, e.eval env = .ok v →
          Access.identities (e.record env).2 = ids ∧
          (Access.functions (e.record env).2).Perm e.calls := by
  obtain ⟨ids, hids⟩ := hground.succeeds_refs
  refine ⟨ids, hids, fun rules mode functions l l' hl => eval_congr e hids hl, fun env => ?_⟩
  have hrecords : Records (e.recorder env) (e.eval env) ids e.calls := records_recorder e hids
  obtain ⟨trace, houtcome, hprefix, hcomplete⟩ := hrecords []
  rw [record, houtcome]
  exact ⟨rfl, hprefix, fun v hv => hcomplete ⟨v, hv⟩⟩

/-- The sum of `a` and of a call with a block of elements and with `a` again. -/
def blockCall : Expr :=
  .add (.ref ⟨"a", []⟩)
    (.call (.text "second") [.refArray [⟨"x", [1]⟩, ⟨"x", [2]⟩] [2], .ref ⟨"a", []⟩])

/-- Every identity has the value 3, and a call of `second` returns its second argument. -/
def blockEnvironment : Environment Dual where
  rules := .density
  functions := Table.empty.insert "second" {
    meaning := fun _ xs => match xs with
      | [_, y] => .ok y
      | _ => .error .wrongKind }
  lookup _ := .ok (.int 3)

/-- The example is resolved. -/
theorem ground_blockCall : blockCall.Ground := by
  refine .add (.ref _) (.call _ fun e he => ?_)
  simp only [List.mem_cons, List.not_mem_nil, or_false] at he
  rcases he with rfl | rfl
  · exact .refArray _ _
  · exact .ref _

/-- The example reads its references in the order of evaluation, one of them twice. -/
theorem eval_reads_blockCall :
    blockCall.Ground ∧ blockCall.eval blockEnvironment = .ok (.int 6) ∧
      Access.identities (blockCall.record blockEnvironment).2 =
        [⟨"a", []⟩, ⟨"x", [1]⟩, ⟨"x", [2]⟩, ⟨"a", []⟩] ∧
      (Access.functions (blockCall.record blockEnvironment).2).Perm [.text "second"] := by
  have heval : blockCall.eval blockEnvironment = .ok (.int 6) := by rfl
  obtain ⟨ids, hids, -, hrecord⟩ := eval_reads (α := Dual) ground_blockCall
  obtain ⟨-, -, hcomplete⟩ := hrecord blockEnvironment
  obtain ⟨hreads, hcalls⟩ := hcomplete (.int 6) heval
  refine ⟨ground_blockCall, heval, ?_, hcalls⟩
  rw [hreads]
  cases hids
  rfl

end Expr

end BayesGraph
