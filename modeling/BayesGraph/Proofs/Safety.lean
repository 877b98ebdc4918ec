import BayesGraph.Coordinates
import BayesGraph.Proofs.Solution

/-!
# Built graphs are safe to evaluate

Whenever an evaluation of a built graph, or the flattening of an assignment, arrives at a node, all
that the node asks for is there (`SafeAt`): the values that it looks up stand in slots that were
filled before, its functions are known, and its family gets as many parameters as it has and is
truncated only if it has a distribution function.

That functions and families fit is checked once for every definition (`Node.Checked`). That slots
are filled is an invariant of the runs: behind a front part of the order the slots of that part are
filled, and the parents of the next node belong to it.
-/

set_option autoImplicit false

namespace BayesGraph

open Outcome

/-- The environment with an answer of its own where nothing is found. -/
def Environment.orElse {α : Type} (env : Environment α)
    (other : Identity → Except EvalError (Value α)) : Environment α :=
  { env with
    lookup := fun id =>
      match env.lookup id with
      | .ok v => .ok v
      | .error _ => other id }

/-- The functions and the family of a node are known, and its distribution fits the family. -/
structure Node.Checked {α : Type} (r : Registry α) (n : Node) : Prop where
  functions : ∀ name ∈ Expr.callsOfAll n.role.parts, ∃ f, name.text?.bind r.functions.get? = some f
  family : ∀ law, n.role.dist? = some law → ∃ f, law.name.text?.bind r.families.get? = some f ∧
    law.params.length = f.params.length ∧ (law.truncated = true → f.logCdf.isSome)

namespace Graph

variable {α : Type}

/-! ## The checks of a build -/

/-- A family is looked up by the text of its name. -/
theorem family_eq_ok {r : Registry α} {name : Datum} {f : Family α} (h : r.family name = .ok f) :
    name.text?.bind r.families.get? = some f := by
  unfold Registry.family at h
  split at h
  · next hf =>
    cases h
    exact hf
  · cases h

/-- A checked distribution has as many parameters as its family, which can be truncated if it is. -/
theorem checkFamily_eq_ok {d : Definition} {law : Dist} {f : Family α} {observed : Bool}
    (h : d.checkFamily law f observed = .ok ()) :
    law.params.length = f.params.length ∧ (law.truncated = true → f.logCdf.isSome) := by
  unfold Definition.checkFamily at h
  split at h
  · cases h
  · next hcount =>
    split at h
    · cases h
    · next htruncation =>
      refine ⟨not_not.mp hcount, fun htruncated => ?_⟩
      have htruncatable : f.truncatable = true := by simpa [htruncated] using htruncation
      exact htruncatable

/-- After the check every called name is that of a function. -/
theorem checkCalls_eq_ok {d : Definition} {r : Registry α} (h : d.checkCalls r = .ok ()) :
    ∀ name ∈ d.meaning.calls, ∃ f, name.text?.bind r.functions.get? = some f := by
  unfold Definition.checkCalls at h
  dsimp only at h
  split at h
  · cases h
  · next hnone =>
    intro name hname
    have hknown := List.find?_eq_none.mp hnone name hname
    rw [Bool.not_eq_true, Bool.not_eq_false'] at hknown
    exact Option.isSome_iff_exists.mp hknown

/-- The distribution of a definition that has a role fits its family. -/
theorem family_of_roleOf {r : Registry α} {data : Bindings} {d : Definition} {role : Role}
    {support : Option SupportKind} (h : roleOf r data d = .ok (role, support)) {law : Dist}
    (hlaw : role.dist? = some law) : ∃ f, law.name.text?.bind r.families.get? = some f ∧
      law.params.length = f.params.length ∧ (law.truncated = true → f.logCdf.isSome) := by
  unfold roleOf at h
  split at h
  · next law' hmeaning =>
    split at h
    · cases h
    · next f hf =>
      simp only [bind_eq_ok] at h
      obtain ⟨⟨⟩, hfit, h⟩ := h
      have hsame : law' = law := by
        split at h <;> cases h <;> exact Option.some.inj hlaw
      subst hsame
      exact ⟨f, family_eq_ok hf, checkFamily_eq_ok hfit⟩
  · cases h
    cases hlaw
  · cases h
    cases hlaw

/-- A role calls no other functions than its definition. -/
theorem calls_roleIn_subset (data : Bindings) (d : Definition) :
    Expr.callsOfAll (roleIn data d).parts ⊆ d.meaning.calls := by
  unfold roleIn
  cases hmeaning : d.meaning with
  | dist law => cases data.values.get? d.target <;> exact List.Subset.refl _
  | expr e =>
    cases data.values.get? d.target with
    | none => exact List.Subset.refl _
    | some v => exact List.nil_subset _

/-- The node of a definition has passed the checks. -/
theorem checked_of_nodeOf {r : Registry α} {data : Bindings} {d : Definition} {n : Node}
    (h : nodeOf r data d = .ok n) : n.Checked r := by
  have hrole := (nodeOf_eq_ok h).2.1
  simp only [nodeOf, bind_eq_ok, pure_eq_ok, Prod.exists] at h
  obtain ⟨role, support, hroleOf, ⟨⟩, hcalls, rfl⟩ := h
  refine ⟨fun name hname => ?_, fun law hlaw => family_of_roleOf hroleOf hlaw⟩
  rw [hrole] at hname
  exact checkCalls_eq_ok hcalls name (calls_roleIn_subset data d hname)

/-- Linking a node to its parents leaves its role as it is. -/
theorem role_of_mem_zipWith {nodes : List Node} {parents : List (List Nat)} {n : Node}
    (hn : n ∈ List.zipWith (fun (n : Node) ps => { n with parents := ps }) nodes parents) :
    ∃ n' ∈ nodes, n.role = n'.role := by
  obtain ⟨i, hi⟩ := List.getElem?_of_mem hn
  obtain ⟨n', ps, hn', -, rfl⟩ := List.getElem?_zipWith_eq_some.mp hi
  exact ⟨n', List.mem_of_getElem? hn', rfl⟩

/-- All nodes of a built graph have passed the checks. -/
theorem checked_of_build [Scalar α] {m : Model} {bindings : Table String Datum} {r : Registry α}
    {g : Graph} (h : (build m bindings r).collect.1 = .ok g) : ∀ n ∈ g.nodes, n.Checked r := by
  obtain ⟨u, -, hu⟩ := ofUnrolled_of_build h
  obtain ⟨nodes, links, hnodes, hlinks, hg, -⟩ := ofUnrolled_eq_ok hu
  intro n hn
  rw [hg, List.mem_append] at hn
  rcases hn with hn | hn
  · obtain ⟨n', hn', hrole⟩ := role_of_mem_zipWith hn
    obtain ⟨d, -, hd⟩ := exists_of_mem_mapM hnodes hn'
    obtain ⟨hfunctions, hfamily⟩ := checked_of_nodeOf hd
    exact ⟨hrole ▸ hfunctions, hrole ▸ hfamily⟩
  · -- a leaf of data has neither expressions nor a distribution
    obtain ⟨v, -, hleaf⟩ := hlinks.from_data n hn
    rw [hleaf]
    exact ⟨by simp [leaf, Role.parts, Expr.callsOfAll], by simp [leaf, Role.dist?]⟩

/-! ## What a node asks for -/

variable [Scalar α]

/-- All that node `n` asks for is there when the values in `slots` are known. -/
structure SafeAt (g : Graph) (r : Registry α) (calls : CallMode) (slots : Slots α) (n : Node) :
    Prop where
  /-- Every identity that the node refers to has a node, and the slot of that node is filled. -/
  filled : ∃ refs, Expr.refsOfAll n.role.parts = .ok refs ∧
    ∀ id ∈ refs, ∃ j v, g.index? id = some j ∧ slots j = some v
  /-- No empty slot is ever read: what would be found there makes no difference. -/
  unread : ∀ e ∈ n.role.parts, ∀ other,
    e.eval ((g.environment r calls slots).orElse other) = e.eval (g.environment r calls slots)
  /-- Every function that is called is known. -/
  functions : ∀ name ∈ Expr.callsOfAll n.role.parts, ∃ f, name.text?.bind r.functions.get? = some f
  /-- The family is known. -/
  family : ∀ law, n.role.dist? = some law → ∃ f, law.name.text?.bind r.families.get? = some f
  /-- The family gets as many parameters as it has, and has a distribution function if it is
  truncated. -/
  bound : ∀ law d, n.role.dist? = some law → bindDist r (g.environment r calls slots) law = .ok d →
    d.params.length = d.family.params.length ∧ (d.truncated = true → d.family.logCdf.isSome)

/-- There is one value for each expression. -/
theorem length_of_evalAll {env : Environment α} {es : List Expr} {vs : List (Value α)}
    (h : Expr.evalAll env es = .ok vs) : vs.length = es.length := by
  induction es generalizing vs with
  | nil =>
    cases h
    rfl
  | cons e es ih =>
    simp only [Expr.evalAll, bind_eq_ok, pure_eq_ok] at h
    obtain ⟨v, -, rest, hrest, rfl⟩ := h
    rw [List.length_cons, List.length_cons, ih hrest]

/-- An optional expression has a value only if it is there. -/
theorem isSome_of_mapM_eval {env : Environment α} {bound : Option Expr} {v : Option (Value α)}
    (h : bound.mapM (Expr.eval env) = .ok v) : v.isSome = bound.isSome := by
  rcases optionMapM_eq_ok.mp h with ⟨rfl, rfl⟩ | ⟨e, x, rfl, rfl, -⟩
  · rfl
  · rfl

/-- A distribution keeps its number of parameters and its bounds when it gets values. -/
theorem bindDist_eq_ok {r : Registry α} {env : Environment α} {law : Dist} {d : BoundDist α}
    (h : bindDist r env law = .ok d) : law.name.text?.bind r.families.get? = some d.family ∧
      d.params.length = law.params.length ∧ d.truncated = law.truncated := by
  simp only [bindDist, bind_eq_ok] at h
  obtain ⟨params, hparams, lower, hlower, upper, hupper, h⟩ := h
  split at h
  · next f hf =>
    cases h
    refine ⟨hf, length_of_evalAll hparams, ?_⟩
    unfold BoundDist.truncated Dist.truncated
    rw [isSome_of_mapM_eval hlower, isSome_of_mapM_eval hupper]
  · cases h

/-- A checked node is safe as soon as the slots of its parents are filled. -/
theorem WellFormed.safeAt {g : Graph} (hg : g.WellFormed) {r : Registry α} {calls : CallMode}
    {slots : Slots α} {i : Nat} {n : Node} (hn : g.nodes[i]? = some n) (hchecked : n.Checked r)
    (hfilled : ∀ j ∈ g.parentLists.parents i, (slots j).isSome) : g.SafeAt r calls slots n := by
  have hmem := List.mem_of_getElem? hn
  obtain ⟨refs, hrefs, -⟩ := hg.linked n hmem
  have hvalues : ∀ id ∈ refs, ∃ j v, g.index? id = some j ∧ slots j = some v := by
    intro id hid
    obtain ⟨j, p, hj, hp, rfl⟩ := hg.parent_of_ref hmem hrefs hid
    rw [← parents_of_getElem? hn] at hj
    obtain ⟨v, hv⟩ := Option.isSome_iff_exists.mp (hfilled j hj)
    exact ⟨j, v, hg.index?_of_getElem? hp, hv⟩
  refine ⟨⟨refs, hrefs, hvalues⟩, ?_, hchecked.functions, ?_, ?_⟩
  · intro e he other
    obtain ⟨own, hown, hsub⟩ := Expr.refs_of_refsOfAll hrefs he
    refine Expr.eval_congr e hown fun id hid => ?_
    obtain ⟨j, v, hj, hv⟩ := hvalues id (hsub hid)
    simp [environment, hj, hv]
  · intro law hlaw
    obtain ⟨f, hf, -⟩ := hchecked.family law hlaw
    exact ⟨f, hf⟩
  · intro law d hlaw hd
    obtain ⟨f, hf, hcount, htruncation⟩ := hchecked.family law hlaw
    obtain ⟨hfamily, hparams, htruncated⟩ := bindDist_eq_ok hd
    rw [hf, Option.some.injEq] at hfamily
    subst hfamily
    exact ⟨hparams.trans hcount, htruncated ▸ htruncation⟩

/-! ## Slots along a run -/

/-- A visit fills the slot of its node and leaves the others as they are. -/
theorem slots_of_visit {g : Graph} {r : Registry α} {mode : EvaluationMode} {theta : List α}
    {ev ev' : Evaluation α} {i : Nat} {n : Node} (hn : g.nodes[i]? = some n)
    (h : g.visit r mode theta ev i = .ok ev') : ∃ v, ev'.slots = ev.slots.put i v := by
  obtain ⟨c, -, hadded⟩ := (visit_eq_ok_iff hn).mp h
  exact ⟨c.value, hadded.slots⟩

/-- The same for a step of the flattening of an assignment. -/
theorem slots_of_flattenNode {g : Graph} {r : Registry α} {assignment : Assignment α}
    {transformed : Bool} {f f' : Flattening α} {log messages : List LogEntry} {i : Nat} {n : Node}
    (hn : g.nodes[i]? = some n)
    (h : (g.flattenNode r assignment transformed f i).run log = (.ok f', messages)) :
    ∃ v, f'.slots = f.slots.put i v := by
  unfold flattenNode at h
  rw [hn] at h
  dsimp only at h
  cases hrole : n.role with
  | logical e =>
    rw [hrole] at h
    dsimp only at h
    obtain ⟨v, mid, -, h⟩ := run_bind_eq_ok.mp h
    obtain ⟨rfl, -⟩ := run_pure_eq_ok.mp h
    exact ⟨v, rfl⟩
  | observed value dist =>
    rw [hrole] at h
    dsimp only at h
    obtain ⟨rfl, -⟩ := run_pure_eq_ok.mp h
    exact ⟨_, rfl⟩
  | parameter law =>
    rw [hrole] at h
    dsimp only at h
    obtain ⟨d, _, -, h⟩ := run_bind_eq_ok.mp h
    obtain ⟨⟨x, y⟩, _, -, h⟩ := run_bind_eq_ok.mp h
    obtain ⟨coordinate, _, -, h⟩ := run_bind_eq_ok.mp h
    obtain ⟨rfl, -⟩ := run_pure_eq_ok.mp h
    exact ⟨x, rfl⟩

omit [Scalar α] in
/-- Filling one more slot keeps the others filled. -/
theorem isSome_put {slots : Slots α} {i j : Nat} {v : Value α}
    (h : j = i ∨ (slots j).isSome) : ((slots.put i v) j).isSome := by
  unfold Slots.put
  split
  · rfl
  · next hne => exact h.resolve_left hne

/-- Behind a run the slots of its nodes are filled, and those that were filled before. -/
theorem isSome_of_visits {g : Graph} {r : Registry α} {mode : EvaluationMode} {theta : List α}
    {visited : List Nat} {ev ev' : Evaluation α} (hlt : ∀ i ∈ visited, i < g.size)
    (h : visited.foldlM (g.visit r mode theta) ev = .ok ev') {j : Nat}
    (hj : j ∈ visited ∨ (ev.slots j).isSome) : (ev'.slots j).isSome := by
  induction visited generalizing ev with
  | nil =>
    cases h
    exact hj.resolve_left List.not_mem_nil
  | cons i rest ih =>
    rw [List.foldlM_cons, bind_eq_ok] at h
    obtain ⟨mid, hmid, h⟩ := h
    have hn := List.getElem?_eq_getElem (hlt i List.mem_cons_self)
    obtain ⟨v, hv⟩ := slots_of_visit hn hmid
    refine ih (fun k hk => hlt k (List.mem_cons_of_mem i hk)) h ?_
    rw [hv]
    rw [List.mem_cons] at hj
    rcases hj with (hj | hj) | hj
    · exact Or.inr (isSome_put (Or.inl hj))
    · exact Or.inl hj
    · exact Or.inr (isSome_put (Or.inr hj))

/-- The same for the flattening of an assignment. -/
theorem isSome_of_flattening {g : Graph} {r : Registry α} {assignment : Assignment α}
    {transformed : Bool} {visited : List Nat} {f f' : Flattening α} {log messages : List LogEntry}
    (hlt : ∀ i ∈ visited, i < g.size)
    (h : (visited.foldlM (g.flattenNode r assignment transformed) f).run log = (.ok f', messages))
    {j : Nat} (hj : j ∈ visited ∨ (f.slots j).isSome) : (f'.slots j).isSome := by
  induction visited generalizing f log with
  | nil =>
    obtain ⟨rfl, -⟩ := run_pure_eq_ok.mp h
    exact hj.resolve_left List.not_mem_nil
  | cons i rest ih =>
    rw [List.foldlM_cons] at h
    obtain ⟨mid, log', hmid, h⟩ := run_bind_eq_ok.mp h
    have hn := List.getElem?_eq_getElem (hlt i List.mem_cons_self)
    obtain ⟨v, hv⟩ := slots_of_flattenNode hn hmid
    refine ih (fun k hk => hlt k (List.mem_cons_of_mem i hk)) h ?_
    rw [hv]
    rw [List.mem_cons] at hj
    rcases hj with (hj | hj) | hj
    · exact Or.inr (isSome_put (Or.inl hj))
    · exact Or.inl hj
    · exact Or.inr (isSome_put (Or.inr hj))

omit [Scalar α] in
/-- A vector with one coordinate for each parameter has a coordinate for each parameter node. -/
theorem WellFormed.exists_coordinate {g : Graph} (hg : g.WellFormed) {theta : List α}
    (htheta : theta.length = g.dimension) {i : Nat} {n : Node} (hn : g.nodes[i]? = some n)
    (hparameter : n.role.isParameter = true) : ∃ y, g.coordinate? theta i = some y := by
  have hmem : i ∈ g.parameters := (hg.mem_parameters_iff hn).mpr hparameter
  obtain ⟨k, hk⟩ := Option.isSome_iff_exists.mp (List.isSome_idxOf?.mpr hmem)
  have hlt : k < theta.length := by
    rw [htheta]
    exact (List.idxOf?_eq_some_iff.mp hk).1
  exact ⟨theta[k], by simp [coordinate?, hk, hlt]⟩

/-! ## The main theorem -/

/-- A built graph is safe to evaluate: when an evaluation with one coordinate for each parameter
arrives at a node, and when the flattening of any assignment does, all that the node asks for is
there. -/
theorem safe_of_build {m : Model} {bindings : Table String Datum} {r : Registry α} {g : Graph}
    (hg : (build m bindings r).collect.1 = .ok g) {before after : List Nat} {i : Nat}
    (hsplit : g.order = before ++ i :: after) :
    ∃ n, g.nodes[i]? = some n ∧
      (∀ mode theta ev, theta.length = g.dimension →
        before.foldlM (g.visit r mode theta) Evaluation.start = .ok ev →
        g.SafeAt r mode.calls ev.slots n ∧
          (n.role.isParameter = true → ∃ y, g.coordinate? theta i = some y)) ∧
      ∀ assignment transformed log messages f,
        (before.foldlM (g.flattenNode r assignment transformed) Flattening.start).run log =
          (.ok f, messages) →
        g.SafeAt r .direct f.slots n := by
  have hwf := wellFormed_of_build hg
  have hsize : ∀ j ∈ g.order, j < g.size := by
    intro j hj
    have hlt := hwf.order.mem_iff.mp hj
    rwa [parentLists, List.length_map] at hlt
  have hbefore : ∀ j ∈ before, j < g.size := fun j hj => hsize j (by simp [hsplit, hj])
  have hn := List.getElem?_eq_getElem (hsize i (by simp [hsplit]))
  have hchecked := checked_of_build hg _ (List.mem_of_getElem? hn)
  -- the parents of the node have been visited before it
  have hparents : ∀ j ∈ g.parentLists.parents i, j ∈ before := by
    have hfirst := hwf.order.parents_first
    rw [hsplit] at hfirst
    exact ParentLists.parents_of_parentsFirst hfirst
  refine ⟨_, hn, fun mode theta ev htheta hev => ⟨?_, ?_⟩, ?_⟩
  · exact hwf.safeAt hn hchecked fun j hj => isSome_of_visits hbefore hev (Or.inl (hparents j hj))
  · exact hwf.exists_coordinate htheta hn
  · intro assignment transformed log messages f hf
    exact hwf.safeAt hn hchecked fun j hj =>
      isSome_of_flattening hbefore hf (Or.inl (hparents j hj))

/-- The graph of the model with a shifted mean is built, and its observation is safe to evaluate
once the parameter and the mean have values. -/
theorem safe_shiftModel :
    ∃ g n ev, (build shiftModel shiftData (Registry.builtin : Registry Dual)).collect.1 = .ok g ∧
      g.order = [0, 1] ++ 2 :: [] ∧ g.nodes[2]? = some n ∧
      [0, 1].foldlM (g.visit (Registry.builtin : Registry Dual) {} [Scalar.ofInt 0])
        Evaluation.start = .ok ev ∧
      g.SafeAt (Registry.builtin : Registry Dual) .direct ev.slots n := by
  obtain ⟨g, hg, horder, hdimension, ev, hev⟩ : ∃ g, (build shiftModel shiftData
      (Registry.builtin : Registry Dual)).collect.1 = .ok g ∧
        g.order = [0, 1] ++ 2 :: [] ∧ g.dimension = 1 ∧
        ∃ ev, [0, 1].foldlM (g.visit (Registry.builtin : Registry Dual) {} [Scalar.ofInt 0])
          Evaluation.start = .ok ev := by
    rw [build_of_constants flatten_shiftData constants_shiftModel]
    decide +kernel
  obtain ⟨n, hn, hevaluate, -⟩ := safe_of_build hg horder
  obtain ⟨hsafe, -⟩ := hevaluate {} [Scalar.ofInt 0] ev hdimension.symm hev
  exact ⟨g, n, ev, hg, horder, hn, hev, hsafe⟩

end Graph

end BayesGraph
