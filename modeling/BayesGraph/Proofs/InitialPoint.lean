import BayesGraph.Proofs.Availability

/-!
# Domain errors at the initial point

A logical node that raises a domain error while an assignment is flattened gets a value that is no
number. The errors of a parameter are not met like this: those of its distribution, of its bounds
and of the transform of its support end the flattening.

So an assignment has a vector of coordinates exactly if no parameter raises an error of its own, and
then a failing logical node reaches no other parameters than those that depend on it: whatever value
it had had instead, the coordinates of all others are the same.
-/

set_option autoImplicit false

namespace BayesGraph

open Outcome

namespace Graph

variable {α : Type} [Scalar α]

/-! ## Flattening without messages -/

/-- The value of a node when an assignment is flattened, with the coordinate of a parameter. A
logical node with an error of the arithmetic has the fallback as its value. -/
def settle (r : Registry α) (env : Environment α) (assignment : Assignment α) (transformed : Bool)
    (fallback : Value α) (n : Node) : Except EvalError (Value α × List α) :=
  match n.role with
  | .logical e =>
    match e.eval env with
    | .ok v => .ok (v, [])
    | .error err => if err.isArithmetic then .ok (fallback, []) else .error err
  | .observed value _ => .ok (.number (value.map Scalar.ofDouble), [])
  | .parameter law => do
    let d ← bindDist r env law
    let (x, y) ← place d transformed (assignment.get? n.id)
    return (x, [← y.toScalar])

/-- Values of nodes and coordinates of parameters. -/
abbrev Settled (α : Type) : Type := Slots α × List α

/-- Goes on to one node. -/
def settleNode (g : Graph) (r : Registry α) (assignment : Assignment α) (transformed : Bool)
    (fallback : Identity → Value α) (s : Settled α) (i : Nat) : Except EvalError (Settled α) :=
  match g.nodes[i]? with
  | none => .ok s
  | some n => do
    let (v, ys) ← settle r (g.environment r .direct s.1) assignment transformed (fallback n.id) n
    return (s.1.put i v, s.2 ++ ys)

/-- Nothing is settled yet. -/
def Settled.start : Settled α := (Slots.empty, [])

/-- An assignment is flattened with values of its own for the logical nodes that fail. -/
def flattenWith (g : Graph) (r : Registry α) (assignment : Assignment α) (transformed : Bool)
    (fallback : Identity → Value α) : Except EvalError (Settled α) :=
  g.order.foldlM (g.settleNode r assignment transformed fallback) Settled.start

/-- The value that stands for a failed one: no number. -/
def undefinedValue : Identity → Value α := fun _ => .real Scalar.nan

/-- What is known without the parameters that have no value. -/
def Flattening.settled (f : Flattening α) : Settled α := (f.slots, f.coordinates)

section Messages

variable (g : Graph) (r : Registry α) (assignment : Assignment α) (transformed : Bool)

/-- A step has the same result without its messages. -/
theorem flattenNode_settled (f : Flattening α) (i : Nat) (log : List LogEntry) :
    ((g.flattenNode r assignment transformed f i).run log).1.map Flattening.settled =
      (g.settleNode r assignment transformed undefinedValue f.settled i).mapError .eval := by
  obtain ⟨slots, coordinates, missing⟩ := f
  unfold flattenNode settleNode settle
  dsimp only [Flattening.settled]
  cases hn : g.nodes[i]? with
  | none => rfl
  | some n =>
    dsimp only
    cases n.role with
    | logical e =>
      unfold logicalOrNaN
      dsimp only
      cases e.eval (g.environment r .direct slots) with
      | ok v =>
        simp only [ok_bind, List.append_nil]
        rfl
      | error err =>
        dsimp only
        split
        · simp only [ok_bind, List.append_nil]
          rfl
        · rfl
    | observed value dist =>
      simp only [ok_bind, List.append_nil]
      rfl
    | parameter law =>
      dsimp only
      cases bindDist r (g.environment r .direct slots) law with
      | error err => rfl
      | ok d =>
        -- one computation after the other, on both sides
        show ((do
          let (x, y) ← (place d transformed (assignment.get? n.id) : Except EvalError _)
          let c ← (y.toScalar : Except EvalError _)
          return {
            slots := slots.put i x
            coordinates := coordinates ++ [c]
            missing := if (assignment.get? n.id).isSome then missing else missing ++ [n.id] } :
            Logged (Flattening α)).run log).1.map Flattening.settled = Except.mapError Failure.eval (do
              let p ← (do
                let (x, y) ← place d transformed (assignment.get? n.id)
                return (x, [← y.toScalar]))
              return (slots.put i p.1, coordinates ++ p.2))
        generalize place d transformed (assignment.get? n.id) = placed
        cases placed with
        | error err => rfl
        | ok p =>
          obtain ⟨x, y⟩ := p
          show (((y.toScalar : Except EvalError _) >>= fun c => pure {
            slots := slots.put i x
            coordinates := coordinates ++ [c]
            missing := if (assignment.get? n.id).isSome then missing else missing ++ [n.id] } :
            Logged (Flattening α)).run log).1.map Flattening.settled = Except.mapError Failure.eval (do
              let p ← (do
                return (x, [← y.toScalar]))
              return (slots.put i p.1, coordinates ++ p.2))
          cases y.toScalar with
          | error err => rfl
          | ok c => rfl

/-- The result of going through some nodes does not depend on the messages. -/
theorem foldlM_flattenNode_settled (is : List Nat) (f : Flattening α) (log : List LogEntry) :
    ((is.foldlM (g.flattenNode r assignment transformed) f).run log).1.map Flattening.settled =
      (is.foldlM (g.settleNode r assignment transformed undefinedValue) f.settled).mapError .eval := by
  induction is generalizing f log with
  | nil => rfl
  | cons i is ih =>
    rw [List.foldlM_cons, List.foldlM_cons]
    have hstep := flattenNode_settled g r assignment transformed f i log
    rcases hrun : (g.flattenNode r assignment transformed f i).run log with ⟨result, messages⟩
    rw [hrun] at hstep
    cases hs : g.settleNode r assignment transformed undefinedValue f.settled i with
    | error err =>
      rw [hs] at hstep
      cases result with
      | error e =>
        rw [run_bind_of_error _ hrun, error_bind]
        exact hstep
      | ok f' => cases hstep
    | ok s =>
      rw [hs] at hstep
      cases result with
      | error e => cases hstep
      | ok f' =>
        cases hstep
        rw [run_bind_of_ok _ hrun, ok_bind]
        exact ih f' messages

/-- Flattening an assignment gives the coordinates of the run without messages. -/
theorem yields_flatten :
    Yields (g.flatten r assignment transformed)
      (match g.flattenWith r assignment transformed undefinedValue with
        | .ok s => .ok s.2
        | .error e => .error (.eval e)) := by
  intro log
  have hsettled := foldlM_flattenNode_settled g r assignment transformed g.order Flattening.start log
  change _ = (g.flattenWith r assignment transformed undefinedValue).mapError Failure.eval at hsettled
  unfold flatten
  rcases hrun : (g.order.foldlM (g.flattenNode r assignment transformed) Flattening.start).run log
    with ⟨result, messages⟩
  rw [hrun] at hsettled
  cases result with
  | error e =>
    rw [run_bind_of_error _ hrun]
    cases hs : g.flattenWith r assignment transformed undefinedValue with
    | error err =>
      rw [hs] at hsettled
      cases hsettled
      rfl
    | ok s =>
      rw [hs] at hsettled
      cases hsettled
  | ok f =>
    rw [run_bind_of_ok _ hrun]
    cases hs : g.flattenWith r assignment transformed undefinedValue with
    | error err =>
      rw [hs] at hsettled
      cases hsettled
    | ok s =>
      rw [hs] at hsettled
      cases hsettled
      dsimp only
      split <;> rfl

/-- The result of flattening an assignment. -/
theorem flatten_result :
    (g.flatten r assignment transformed).collect.1 =
      match g.flattenWith r assignment transformed undefinedValue with
      | .ok s => .ok s.2
      | .error e => .error (.eval e) :=
  (yields_flatten g r assignment transformed).collect

/-- A run of steps without messages is one of the flattening. -/
theorem exists_run_of_settled {is : List Nat} {s : Settled α}
    (h : is.foldlM (g.settleNode r assignment transformed undefinedValue) Settled.start = .ok s) :
    ∃ f messages, (is.foldlM (g.flattenNode r assignment transformed) Flattening.start).run [] =
      (.ok f, messages) ∧ f.settled = s := by
  have hsettled := foldlM_flattenNode_settled g r assignment transformed is Flattening.start []
  change _ = (is.foldlM (g.settleNode r assignment transformed undefinedValue)
    Settled.start).mapError Failure.eval at hsettled
  rw [h] at hsettled
  rcases hrun : (is.foldlM (g.flattenNode r assignment transformed) Flattening.start).run []
    with ⟨result, messages⟩
  rw [hrun] at hsettled
  cases result with
  | error e => cases hsettled
  | ok f => exact ⟨f, messages, rfl, Except.ok.inj hsettled⟩

end Messages

/-! ## Runs that go through -/

variable {g : Graph} {r : Registry α} {assignment : Assignment α} {transformed : Bool}
  {fallback : Identity → Value α} {s s' : Settled α} {n : Node}

/-- Is it the number of a parameter? -/
def isParameterAt (g : Graph) (i : Nat) : Bool := (g.nodes[i]?).any (·.role.isParameter)

/-- There is one coordinate for each parameter. -/
theorem length_settle {env : Environment α} {v v' : Value α} {ys : List α}
    (h : settle r env assignment transformed v n = .ok (v', ys)) :
    ys.length = if n.role.isParameter then 1 else 0 := by
  unfold settle at h
  cases hrole : n.role with
  | logical e =>
    rw [hrole] at h
    dsimp only at h
    split at h
    · cases h
      rfl
    · split at h
      · cases h
        rfl
      · cases h
  | observed value dist =>
    rw [hrole] at h
    cases h
    rfl
  | parameter law =>
    rw [hrole] at h
    simp only [bind_eq_ok, pure_eq_ok] at h
    obtain ⟨d, -, p, -, c, -, h⟩ := h
    cases h
    rfl

/-- A step in terms of its node. -/
theorem settleNode_eq_ok {i : Nat} (hn : g.nodes[i]? = some n) :
    g.settleNode r assignment transformed fallback s i = .ok s' ↔
      ∃ v ys, settle r (g.environment r .direct s.1) assignment transformed (fallback n.id) n =
        .ok (v, ys) ∧ s' = (s.1.put i v, s.2 ++ ys) := by
  unfold settleNode
  rw [hn]
  simp only [bind_eq_ok, pure_eq_ok, Prod.exists]
  constructor
  · rintro ⟨v, ys, h, rfl⟩
    exact ⟨v, ys, h, rfl⟩
  · rintro ⟨v, ys, h, rfl⟩
    exact ⟨v, ys, h, rfl⟩

/-- The coordinates along a run are as many as the parameters. -/
theorem length_of_run {is : List Nat} (his : ∀ i ∈ is, i < g.size)
    (h : is.foldlM (g.settleNode r assignment transformed fallback) Settled.start = .ok s) :
    s.2.length = (is.filter g.isParameterAt).length := by
  induction is using List.reverseRecOn generalizing s with
  | nil =>
    cases h
    rfl
  | append_singleton is i ih =>
    rw [foldlM_append_eq_ok] at h
    obtain ⟨mid, hmid, h⟩ := h
    rw [foldlM_singleton] at h
    obtain ⟨n, hn⟩ : ∃ n, g.nodes[i]? = some n := ⟨_, List.getElem?_eq_getElem (his i (by simp))⟩
    obtain ⟨v, ys, hys, rfl⟩ := (settleNode_eq_ok hn).mp h
    have hlength := ih (fun j hj => his j (by simp [hj])) hmid
    rw [List.length_append, hlength, length_settle hys, List.filter_append, List.length_append]
    congr 1
    by_cases hp : n.role.isParameter = true
    · simp [isParameterAt, hn, hp]
    · simp [isParameterAt, hn, hp]

/-- Every node but the observed ones fits when the flattening arrives there. -/
def FitsFlattening (g : Graph) (r : Registry α) (assignment : Assignment α) (transformed : Bool) :
    Prop :=
  ∀ before i after n s, g.order = before ++ i :: after → g.nodes[i]? = some n →
    n.role.isObserved = false →
    before.foldlM (g.settleNode r assignment transformed undefinedValue) Settled.start = .ok s →
    n.role.Fits (g.environment r .direct s.1)

/-- No parameter raises an error of its own when the flattening arrives there: its distribution
has parameters and bounds, and its value has a coordinate. -/
def PlacesAll (g : Graph) (r : Registry α) (assignment : Assignment α) (transformed : Bool) :
    Prop :=
  ∀ before i after n law s, g.order = before ++ i :: after → g.nodes[i]? = some n →
    n.role = .parameter law →
    before.foldlM (g.settleNode r assignment transformed undefinedValue) Settled.start = .ok s →
    ∃ d x y c, bindDist r (g.environment r .direct s.1) law = .ok d ∧
      place d transformed (assignment.get? n.id) = .ok (x, y) ∧ y.toScalar = .ok c

/-- A parameter is settled if it is placed, and adds its coordinate. -/
theorem settle_parameter_eq_ok {env : Environment α} {law : Dist} {v x : Value α} {ys : List α}
    (hrole : n.role = .parameter law) :
    settle r env assignment transformed v n = .ok (x, ys) ↔
      ∃ d y c, bindDist r env law = .ok d ∧ place d transformed (assignment.get? n.id) = .ok (x, y) ∧
        y.toScalar = .ok c ∧ ys = [c] := by
  unfold settle
  rw [hrole]
  simp only [bind_eq_ok, pure_eq_ok, Prod.exists, Prod.mk.injEq]
  constructor
  · rintro ⟨d, hd, x', y, hplace, c, hc, rfl, rfl⟩
    exact ⟨d, y, c, hd, hplace, hc, rfl⟩
  · rintro ⟨d, y, c, hd, hplace, hc, rfl⟩
    exact ⟨d, hd, x, y, hplace, c, hc, rfl, rfl⟩

/-- A parameter has a number as its value. -/
theorem numeric_of_place {d : BoundDist α} {assigned : Option (Value α)} {x y : Value α}
    (hd : d.OfScalars) (hassigned : ∀ v ∈ assigned, v.IsNumeric)
    (h : place d transformed assigned = .ok (x, y)) : x.IsNumeric := by
  unfold place at h
  cases assigned with
  | some v =>
    have hx : x = v := by
      dsimp only at h
      split at h
      · simp only [bind_eq_ok, pure_eq_ok] at h
        obtain ⟨w, -, h⟩ := h
        exact (congrArg Prod.fst h).symm
      · cases h
        rfl
    exact hx ▸ hassigned v rfl
  | none =>
    simp only [bind_eq_ok, pure_eq_ok, Prod.exists] at h
    obtain ⟨x', slope, hx, h⟩ := h
    cases h
    exact ((BoundDist.contained_toConstrained hd (Value.isArray_number _)).of_ok hx).1.numeric

/-- A step from numeric slots to numeric slots, if a parameter raises no error of its own. -/
theorem exists_settle {slots : Slots α} (hr : r.Sound) (hsafe : g.SafeAt r .direct slots n)
    (hresolved : ∀ e ∈ n.role.parts, e.Resolved)
    (hfits : n.role.isObserved = false → n.role.Fits (g.environment r .direct slots))
    (hassigned : ∀ id v, assignment.get? id = some v → v.IsNumeric)
    (hplaces : ∀ law, n.role = .parameter law → ∃ d x y c,
      bindDist r (g.environment r .direct slots) law = .ok d ∧
        place d transformed (assignment.get? n.id) = .ok (x, y) ∧ y.toScalar = .ok c)
    (hslots : ∀ j v, slots j = some v → v.IsNumeric) :
    ∃ v ys, settle r (g.environment r .direct slots) assignment transformed
      (undefinedValue n.id) n = .ok (v, ys) ∧ v.IsNumeric := by
  cases hrole : n.role with
  | logical e =>
    have he : e ∈ n.role.parts := by simp [hrole, Role.parts]
    have hvalue := hsafe.contained_eval hslots he (hresolved e he)
      ((hfits (by rw [hrole]; rfl)).parts e he)
    unfold settle
    rw [hrole]
    dsimp only
    cases heval : e.eval (g.environment r .direct slots) with
    | ok v => exact ⟨v, [], rfl, hvalue.of_ok heval⟩
    | error err =>
      dsimp only
      rw [if_pos (hvalue.isArithmetic heval)]
      exact ⟨_, [], rfl, trivial⟩
  | observed value dist =>
    refine ⟨.number (value.map Scalar.ofDouble), [], ?_, trivial⟩
    unfold settle
    rw [hrole]
  | parameter law =>
    obtain ⟨d, x, y, c, hd, hplace, hc⟩ := hplaces law hrole
    have hscalars := (hsafe.contained_bindDist hr hslots hresolved (hfits (by rw [hrole]; rfl))
      (by rw [hrole]; rfl)).of_ok hd
    refine ⟨x, [c], (settle_parameter_eq_ok hrole).mpr ⟨d, y, c, hd, hplace, hc, rfl⟩, ?_⟩
    exact numeric_of_place hscalars (fun v hv => hassigned n.id v hv) hplace

/-- If no parameter raises an error of its own, the flattening goes through. -/
theorem exists_run {m : Model} {bindings : Table String Datum} (hm : m.check = .ok ())
    (hg : (build m bindings r).collect.1 = .ok g) (hr : r.Sound)
    (hassigned : ∀ id v, assignment.get? id = some v → v.IsNumeric)
    (hfits : g.FitsFlattening r assignment transformed)
    (hplaces : g.PlacesAll r assignment transformed) {before after : List Nat}
    (hsplit : g.order = before ++ after) :
    ∃ s, before.foldlM (g.settleNode r assignment transformed undefinedValue) Settled.start =
      .ok s ∧ ∀ j v, s.1 j = some v → v.IsNumeric := by
  induction before using List.reverseRecOn generalizing after with
  | nil => exact ⟨Settled.start, rfl, fun j v h => by cases h⟩
  | append_singleton before i ih =>
    rw [List.append_assoc, List.singleton_append] at hsplit
    obtain ⟨s, hs, hnumeric⟩ := ih hsplit
    obtain ⟨n, hn, -, hsafe⟩ := safe_of_build hg hsplit
    obtain ⟨f, messages, hf, hsettled⟩ := exists_run_of_settled g r assignment transformed hs
    have hslots : f.slots = s.1 := congrArg Prod.fst hsettled
    have hsafe' := hslots ▸ hsafe assignment transformed [] messages f hf
    obtain ⟨v, ys, hv, hvnumeric⟩ := exists_settle hr hsafe'
      (resolved_of_build hm hg n (List.mem_of_getElem? hn))
      (fun hobserved => hfits before i after n s hsplit hn hobserved hs) hassigned
      (fun law hlaw => hplaces before i after n law s hsplit hn hlaw hs) hnumeric
    refine ⟨(s.1.put i v, s.2 ++ ys), ?_, numeric_put hnumeric hvnumeric i⟩
    rw [foldlM_append_eq_ok]
    refine ⟨s, hs, ?_⟩
    rw [foldlM_singleton]
    exact (settleNode_eq_ok hn).mpr ⟨v, ys, hv, rfl⟩

/-- The flattening goes through exactly if no parameter raises an error of its own. -/
theorem exists_flattenWith_iff {m : Model} {bindings : Table String Datum} (hm : m.check = .ok ())
    (hg : (build m bindings r).collect.1 = .ok g) (hr : r.Sound)
    (hassigned : ∀ id v, assignment.get? id = some v → v.IsNumeric)
    (hfits : g.FitsFlattening r assignment transformed) :
    (∃ s, g.flattenWith r assignment transformed undefinedValue = .ok s) ↔
      g.PlacesAll r assignment transformed := by
  constructor
  · rintro ⟨s, hs⟩ before i after n law mid hsplit hn hrole hmid
    unfold flattenWith at hs
    rw [hsplit, foldlM_append_eq_ok] at hs
    obtain ⟨mid', hmid', hs⟩ := hs
    rw [hmid, Except.ok.injEq] at hmid'
    subst hmid'
    rw [List.foldlM_cons, bind_eq_ok] at hs
    obtain ⟨next, hnext, -⟩ := hs
    obtain ⟨x, ys, hsettle, -⟩ := (settleNode_eq_ok hn).mp hnext
    obtain ⟨d, y, c, hd, hplace, hc, -⟩ := (settle_parameter_eq_ok hrole).mp hsettle
    exact ⟨d, x, y, c, hd, hplace, hc⟩
  · intro hplaces
    obtain ⟨s, hs, -⟩ := exists_run hm hg hr hassigned hfits hplaces (List.append_nil g.order).symm
    exact ⟨s, hs⟩

/-! ## What a failing node reaches -/

/-- A logical node raises an error of the arithmetic when the flattening arrives there. -/
def FailsAt (g : Graph) (r : Registry α) (assignment : Assignment α) (transformed : Bool) (j : Nat) :
    Prop :=
  ∃ before after n e s err, g.order = before ++ j :: after ∧ g.nodes[j]? = some n ∧
    n.role = .logical e ∧
    before.foldlM (g.settleNode r assignment transformed undefinedValue) Settled.start = .ok s ∧
    e.eval (g.environment r .direct s.1) = .error err ∧ err.isArithmetic = true

/-- A node is computed from another one, directly or through others, or is that node. -/
def DependsOn (g : Graph) : Nat → Nat → Prop :=
  Relation.ReflTransGen fun i j => j ∈ g.parentLists.parents i

/-- A node that does not depend on a failing one. -/
def Unaffected (g : Graph) (r : Registry α) (assignment : Assignment α) (transformed : Bool)
    (i : Nat) : Prop :=
  ∀ j, g.DependsOn i j → ¬ g.FailsAt r assignment transformed j

/-- The parents of an unaffected node are unaffected. -/
theorem Unaffected.parent {i j : Nat} (h : g.Unaffected r assignment transformed i)
    (hj : j ∈ g.parentLists.parents i) : g.Unaffected r assignment transformed j :=
  fun k hk => h k (hk.head hj)

/-- A node settles at the same value where its references have the same values. -/
theorem settle_congr {V V' : Valuation α} {refs : List Identity} {v : Value α}
    (hrefs : Expr.refsOfAll n.role.parts = .ok refs) (hV : ∀ id ∈ refs, V id = V' id) :
    settle r (V.environment r .direct) assignment transformed v n =
      settle r (V'.environment r .direct) assignment transformed v n := by
  unfold settle
  cases hrole : n.role with
  | logical e =>
    rw [hrole] at hrefs
    dsimp only
    rw [eval_congr hrefs hV]
  | observed value dist => rfl
  | parameter law =>
    rw [hrole] at hrefs
    dsimp only
    rw [bindDist_congr hrefs hV]

/-- A node that does not fail settles without its fallback. -/
theorem settle_fallback {env : Environment α} {v w x : Value α} {ys : List α}
    (hfails : ∀ e err, n.role = .logical e → e.eval env = .error err → err.isArithmetic = false)
    (h : settle r env assignment transformed v n = .ok (x, ys)) :
    settle r env assignment transformed w n = .ok (x, ys) := by
  unfold settle at h ⊢
  cases hrole : n.role with
  | logical e =>
    rw [hrole] at h
    dsimp only at h ⊢
    cases heval : e.eval env with
    | ok u =>
      rw [heval] at h
      exact h
    | error err =>
      rw [heval] at h
      dsimp only at h
      rw [hfails e err hrole heval] at h
      cases h
  | observed value dist =>
    rw [hrole] at h
    exact h
  | parameter law =>
    rw [hrole] at h
    exact h

/-- An unaffected node settles alike in both runs: its parents are unaffected, and they have been
visited. -/
theorem settle_eq_of_unaffected (hg : g.WellFormed) {before after : List Nat} {i : Nat}
    {v v' : Value α} {ys ys' : List α} (hsplit : g.order = before ++ i :: after)
    (hs : before.foldlM (g.settleNode r assignment transformed undefinedValue) Settled.start =
      .ok s)
    (hslots : ∀ j ∈ before, g.Unaffected r assignment transformed j → s.1 j = s'.1 j)
    (hunaffected : g.Unaffected r assignment transformed i) (hn : g.nodes[i]? = some n)
    (hv : settle r (g.environment r .direct s.1) assignment transformed (undefinedValue n.id) n =
      .ok (v, ys))
    (hv' : settle r (g.environment r .direct s'.1) assignment transformed (fallback n.id) n =
      .ok (v', ys')) : v = v' ∧ ys = ys' := by
  obtain ⟨refs, hrefs, -⟩ := hg.linked n (List.mem_of_getElem? hn)
  have hvalues : ∀ id ∈ refs, g.valuation s.1 id = g.valuation s'.1 id := by
    intro id hid
    obtain ⟨j, p, hj, hp, rfl⟩ := hg.parent_of_ref (List.mem_of_getElem? hn) hrefs hid
    rw [← parents_of_getElem? hn] at hj
    have hfirst := hg.order.parents_first
    rw [hsplit] at hfirst
    have hbefore : j ∈ before := ParentLists.parents_of_parentsFirst hfirst j hj
    simp only [valuation, hg.index?_of_getElem? hp, Option.bind_some]
    exact hslots j hbefore (hunaffected.parent hj)
  have hnot : ∀ e err, n.role = .logical e →
      e.eval (g.environment r .direct s.1) = .error err → err.isArithmetic = false := by
    intro e err hrole heval
    rw [Bool.eq_false_iff]
    intro harithmetic
    exact hunaffected i Relation.ReflTransGen.refl
      ⟨before, after, n, e, s, err, hsplit, hn, hrole, hs, heval, harithmetic⟩
  have hw := settle_fallback (w := fallback n.id) hnot hv
  rw [environment_eq] at hw hv'
  rw [settle_congr hrefs hvalues, hv', Except.ok.injEq, Prod.mk.injEq] at hw
  exact ⟨hw.1.symm, hw.2.symm⟩

/-- Two runs that differ in the values of failing nodes agree everywhere else. -/
theorem agree_of_runs (hg : g.WellFormed) {before after : List Nat}
    (hsplit : g.order = before ++ after)
    (hs : before.foldlM (g.settleNode r assignment transformed undefinedValue) Settled.start =
      .ok s)
    (hs' : before.foldlM (g.settleNode r assignment transformed fallback) Settled.start = .ok s') :
    (∀ j ∈ before, g.Unaffected r assignment transformed j → s.1 j = s'.1 j) ∧
      ∀ k i : Nat, (before.filter g.isParameterAt)[k]? = some i →
        g.Unaffected r assignment transformed i → s.2[k]? = s'.2[k]? := by
  -- The induction takes the last node off, because whether it is affected depends on the nodes
  -- before it.
  induction before using List.reverseRecOn generalizing after s s' with
  | nil => simp
  | append_singleton before i ih =>
    rw [List.append_assoc, List.singleton_append] at hsplit
    rw [foldlM_append_eq_ok] at hs hs'
    obtain ⟨mid, hmid, hs⟩ := hs
    obtain ⟨mid', hmid', hs'⟩ := hs'
    obtain ⟨hslots, hcoordinates⟩ := ih hsplit hmid hmid'
    rw [foldlM_singleton] at hs hs'
    have hsize : ∀ j ∈ before ++ i :: after, j < g.size := fun j hj => hg.lt_size j (hsplit ▸ hj)
    obtain ⟨n, hn⟩ : ∃ n, g.nodes[i]? = some n := ⟨_, List.getElem?_eq_getElem (hsize i (by simp))⟩
    obtain ⟨v, ys, hv, rfl⟩ := (settleNode_eq_ok hn).mp hs
    obtain ⟨v', ys', hv', rfl⟩ := (settleNode_eq_ok hn).mp hs'
    have hsame : g.Unaffected r assignment transformed i → v = v' ∧ ys = ys' := fun hunaffected =>
      settle_eq_of_unaffected hg hsplit hmid hslots hunaffected hn hv hv'
    constructor
    · intro j hj hunaffected
      show mid.1.put i v j = mid'.1.put i v' j
      unfold Slots.put
      split
      · next hji =>
        subst hji
        rw [(hsame hunaffected).1]
      · next hji =>
        have hbefore : j ∈ before := by simpa [hji] using hj
        exact hslots j hbefore hunaffected
    · intro k j hk hunaffected
      have hlt : ∀ j ∈ before, j < g.size := fun j hj => hsize j (by simp [hj])
      have hlength := length_of_run hlt hmid
      have hlength' := length_of_run hlt hmid'
      show (mid.2 ++ ys)[k]? = (mid'.2 ++ ys')[k]?
      rw [List.filter_append] at hk
      by_cases hlast : k < (before.filter g.isParameterAt).length
      · rw [List.getElem?_append_left (hlength ▸ hlast), List.getElem?_append_left (hlength' ▸ hlast)]
        rw [List.getElem?_append_left hlast] at hk
        exact hcoordinates k j hk hunaffected
      · rw [List.getElem?_append_right (by omega)] at hk
        have hij : j = i := by
          have hmem := List.mem_of_getElem? hk
          simp only [List.mem_filter, List.mem_singleton] at hmem
          exact hmem.1
        rw [List.getElem?_append_right (by omega), List.getElem?_append_right (by omega), hlength,
          hlength', (hsame (hij ▸ hunaffected)).2]

/-- Domain errors at the initial point of a graph that was built from a valid model. Where the
expressions of all nodes fit, an assignment has a vector of coordinates exactly if no parameter
raises an error of its own. The coordinates of all parameters that do not depend on a failing
logical node are then those that they have with any other values of the failing nodes. -/
theorem flatten_isolated {m : Model} {bindings : Table String Datum} (hm : m.check = .ok ())
    (hg : (build m bindings r).collect.1 = .ok g) (hr : r.Sound)
    (hassigned : ∀ id v, assignment.get? id = some v → v.IsNumeric)
    (hfits : g.FitsFlattening r assignment transformed) :
    ((∃ theta, (g.flatten r assignment transformed).collect.1 = .ok theta ∧
        theta.length = g.dimension) ↔ g.PlacesAll r assignment transformed) ∧
      ∀ theta, (g.flatten r assignment transformed).collect.1 = .ok theta →
        ∀ fallback s, g.flattenWith r assignment transformed fallback = .ok s →
          ∀ k i : Nat, g.parameters[k]? = some i → g.Unaffected r assignment transformed i →
            theta[k]? = s.2[k]? := by
  have hwf := wellFormed_of_build hg
  have hok : ∀ theta, (g.flatten r assignment transformed).collect.1 = .ok theta →
      ∃ s, g.flattenWith r assignment transformed undefinedValue = .ok s ∧ s.2 = theta := by
    intro theta htheta
    rw [flatten_result] at htheta
    split at htheta
    · next s hs => exact ⟨s, hs, Except.ok.inj htheta⟩
    · cases htheta
  constructor
  · rw [← exists_flattenWith_iff hm hg hr hassigned hfits]
    constructor
    · rintro ⟨theta, htheta, -⟩
      obtain ⟨s, hs, -⟩ := hok theta htheta
      exact ⟨s, hs⟩
    · rintro ⟨s, hs⟩
      refine ⟨s.2, ?_, ?_⟩
      · rw [flatten_result, hs]
      · rw [length_of_run hwf.lt_size hs, dimension, hwf.parameters]
        rfl
  · intro theta htheta fallback s hs k i hk hunaffected
    obtain ⟨s₀, hs₀, rfl⟩ := hok theta htheta
    rw [hwf.parameters] at hk
    exact (agree_of_runs hwf (List.append_nil g.order).symm hs₀ hs).2 k i hk hunaffected

/-! ## A failing function -/

/-- A function that has no value anywhere. -/
def failingFunction : Callable Dual where
  signature := some [.required "x"]
  meaning _ _ := .error (.domain "always")

/-- The built-in registry with that function. -/
def failingRegistry : Registry Dual where
  families := Registry.builtin.families
  functions := Registry.builtin.functions.insert "fail" failingFunction
  foldingFunctions := Registry.builtin.foldingFunctions.insert "fail" failingFunction

/-- The function is called by `z`, from which `y` has its location. -/
def failingModel : Model where
  statements :=
    [.sample [] (.var (.text "x")) (.dist standardNormal),
    .assign [] (.var (.text "z")) (.call (.text "fail") [.var (.text "x")]),
    .sample [] (.var (.text "y"))
      (.dist { name := .text "dnorm", params := [.var (.text "z"), .literal (.int 1)] }),
    .sample [] (.var (.text "w"))
      (.dist { name := .text "dnorm", params := [.var (.text "x"), .literal (.int 1)] })]

/-- The graph of the model. -/
def failingGraph : Graph where
  nodes :=
    [{ id := ⟨"x", []⟩, role := .parameter standardNormal, statement := some "x ~ dnorm(0, 1)" },
    { id := ⟨"z", []⟩
      role := .logical (.call (.text "fail") [.ref ⟨"x", []⟩])
      parents := [0]
      statement := some "z <- fail(x)" },
    { id := ⟨"y", []⟩
      role := .parameter { name := .text "dnorm", params := [.ref ⟨"z", []⟩, .literal (.int 1)] }
      parents := [1]
      statement := some "y ~ dnorm(z, 1)" },
    { id := ⟨"w", []⟩
      role := .parameter { name := .text "dnorm", params := [.ref ⟨"x", []⟩, .literal (.int 1)] }
      parents := [0]
      statement := some "w ~ dnorm(x, 1)" }]
  order := [0, 1, 2, 3]
  parameters := [0, 2, 3]

/-- The model is built without data, as the graph. -/
theorem build_failingModel :
    (build failingModel Table.empty failingRegistry).collect.1 = .ok failingGraph := by
  have hdata : Bindings.flatten Table.empty = .ok ⟨Table.empty, ⟨[]⟩⟩ := rfl
  have hconstants : Folding.constants failingRegistry.foldingFunctions failingModel.statements
      ⟨Table.empty, ⟨[]⟩⟩ = .ok Table.empty := by
    unfold Folding.constants Folding.saturate
    rfl
  rw [build_of_constants hdata hconstants]
  with_unfolding_all rfl

/-- The graph fits the coordinates, where no value is assigned. -/
theorem fits_failingGraph : failingGraph.FitsFlattening failingRegistry Table.empty true := by
  intro before i after n s hsplit hn hobserved hs
  rcases before with _ | ⟨a, _ | ⟨b, _ | ⟨c, _ | ⟨d, before⟩⟩⟩⟩
  · cases hsplit
    cases hn
    exact fits_standardNormal _
  · cases hsplit
    cases hn
    refine ⟨?_, fun law hlaw => by cases hlaw⟩
    simp only [Role.parts, List.forall_mem_singleton, Expr.Fits, Expr.FitsAll]
    refine ⟨⟨trivial, trivial⟩, ?_⟩
    -- the error is one of the arithmetic
    rintro f ⟨⟩ xs -
    exact rfl
  · cases hsplit
    cases hn
    cases hs
    apply fits_parameter
    simp only [Dist.parts, Dist.bounds, Option.toList, List.append_nil, List.forall_mem_cons]
    refine ⟨⟨trivial, ?_⟩, fits_literal _ 1, by simp⟩
    rintro v ⟨⟩
    rfl
  · cases hsplit
    cases hn
    cases hs
    apply fits_parameter
    simp only [Dist.parts, Dist.bounds, Option.toList, List.append_nil, List.forall_mem_cons]
    refine ⟨⟨trivial, ?_⟩, fits_literal _ 1, by simp⟩
    rintro v ⟨⟩
    rfl
  · simp [failingGraph] at hsplit

/-- Every parameter of the graph is placed. -/
theorem places_failingGraph : failingGraph.PlacesAll failingRegistry Table.empty true := by
  intro before i after n law s hsplit hn hrole hs
  rcases before with _ | ⟨a, _ | ⟨b, _ | ⟨c, _ | ⟨d, before⟩⟩⟩⟩
  · cases hsplit
    cases hn
    cases hrole
    exact ⟨_, _, _, _, rfl, rfl, rfl⟩
  · cases hsplit
    cases hn
    cases hrole
  · cases hsplit
    cases hn
    cases hrole
    cases hs
    exact ⟨_, _, _, _, rfl, rfl, rfl⟩
  · cases hsplit
    cases hn
    cases hrole
    cases hs
    exact ⟨_, _, _, _, rfl, rfl, rfl⟩
  · simp [failingGraph] at hsplit

/-- Neither `w` nor its parent `x` is a logical node. -/
theorem unaffected_failingGraph :
    failingGraph.Unaffected failingRegistry Table.empty true 3 := by
  intro j hdepends
  have hj : j = 3 ∨ j = 0 := by
    induction hdepends with
    | refl => exact Or.inl rfl
    | tail _ hparent ih =>
      rcases ih with rfl | rfl
      · exact Or.inr (List.mem_singleton.mp hparent)
      · cases hparent
  rintro ⟨before, after, n, e, s, err, -, hn, hrole, -⟩
  rcases hj with rfl | rfl
  · cases hn
    cases hrole
  · cases hn
    cases hrole

/-- The flattening goes through although `z` fails, and the coordinate of `w` is not affected. -/
theorem flatten_failingModel :
    ∃ theta, failingModel.check = .ok () ∧
      (build failingModel Table.empty failingRegistry).collect.1 = .ok failingGraph ∧
      failingGraph.FailsAt failingRegistry Table.empty true 1 ∧
      (failingGraph.flatten failingRegistry Table.empty true).collect.1 = .ok theta ∧
      theta.length = failingGraph.dimension ∧
      ∀ fallback s, failingGraph.flattenWith failingRegistry Table.empty true fallback = .ok s →
        theta[2]? = s.2[2]? := by
  have hr : failingRegistry.Sound := fun name f h => Registry.sound_builtin name f h
  obtain ⟨hiff, hisolated⟩ := flatten_isolated (m := failingModel) rfl build_failingModel hr
    (fun id v h => by cases h) fits_failingGraph
  obtain ⟨theta, htheta, hlength⟩ := hiff.mpr places_failingGraph
  refine ⟨theta, rfl, build_failingModel, ?_, htheta, hlength, ?_⟩
  · exact ⟨[0], [2, 3], _, _, _, _, rfl, rfl, rfl, rfl, rfl, rfl⟩
  · intro fallback s hs
    exact hisolated theta htheta fallback s hs 2 3 rfl unaffected_failingGraph

/-! ## A parameter between two equal bounds -/

/-- One parameter is between two equal bounds, the other one is not. -/
def pointModel : Model where
  statements :=
    [.sample [] (.var (.text "x"))
      (.dist { name := .text "dunif", params := [.literal (.int 2), .literal (.int 2)] }),
    .sample [] (.var (.text "y")) (.dist standardNormal)]

/-- No function is called, but the transform of the first parameter divides by zero, and the other
parameter has no coordinate either. -/
theorem not_flattens_pointModel :
    ∃ g, pointModel.check = .ok () ∧
      (build pointModel Table.empty (Registry.builtin : Registry Dual)).collect.1 = .ok g ∧
      (∀ n ∈ g.nodes, Expr.callsOfAll n.role.parts = []) ∧ g.dimension = 2 ∧
      (g.flatten (Registry.builtin : Registry Dual) Table.empty true).collect.1 =
        .error (.eval .zeroDivision) := by
  have hdata : Bindings.flatten Table.empty = .ok ⟨Table.empty, ⟨[]⟩⟩ := rfl
  have hconstants : Folding.constants (Registry.builtin : Registry Dual).foldingFunctions
      pointModel.statements ⟨Table.empty, ⟨[]⟩⟩ = .ok Table.empty := by
    unfold Folding.constants Folding.saturate
    rfl
  have hruns : ((build pointModel Table.empty
      (Registry.builtin : Registry Dual)).collect.1.toOption.any fun g =>
        decide (∀ n ∈ g.nodes, Expr.callsOfAll n.role.parts = []) &&
          decide (g.dimension = 2) && decide (evalError?
            (g.flatten (Registry.builtin : Registry Dual) Table.empty true).collect.1 =
              some .zeroDivision)) = true := by
    rw [build_result]
    unfold Unrolled.make
    simp only [hdata, hconstants, ok_bind]
    decide +kernel
  obtain ⟨g, hg, h⟩ := (Option.any_eq_true _ _).mp hruns
  simp only [Bool.and_eq_true, decide_eq_true_eq] at h
  exact ⟨g, rfl, toOption_eq_some.mp hg, h.1.1, h.1.2, evalError?_eq_some.mp h.2⟩

end Graph

end BayesGraph
