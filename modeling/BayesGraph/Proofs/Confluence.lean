import BayesGraph.Proofs.Rearrangement

/-!
# Folding in every order of statements

Rounds of folding visit statements in the order in which they are written, and a value can be used
as soon as it is known. The constants that are found in the end do not depend on this order, if no
identity is defined by two instances. They are a fixpoint: closed under the visits of all instances
to which they lead, and no larger than needed, since an instance supports each of them. A walk
through rearranged statements that starts below a fixpoint never leaves it and never fails: whatever
an instance adds early, it still supports at the fixpoint, where its identity has this value.
-/

set_option autoImplicit false

namespace BayesGraph

open Outcome

variable {α : Type} [Scalar α]

/-! ## The identities that instances define -/

namespace Context

/-- The identity on the left-hand side of an instance, if it has one that resolves. -/
def target? (ctx : Context α) (site : Site) : Option Identity :=
  site.lhs?.bind fun lhs => (ctx.resolveTarget site lhs).toOption

/-- The instances to which a context leads and that define an identity, each with its identity. -/
def declared (ctx : Context α) (sites : List Site) : List (Site × Identity) :=
  (ctx.reach sites).filterMap fun site => (ctx.target? site).map (site, ·)

variable {ctx ctx' : Context α} {sites : List Site} {ss ss' : List Stmt}

/-- An instance has a target if its left-hand side resolves to an identity. -/
theorem target?_eq_some {site : Site} {id : Identity} :
    ctx.target? site = some id ↔
      ∃ lhs, site.lhs? = some lhs ∧ ctx.resolveTarget site lhs = .ok id := by
  simp only [target?, Option.bind_eq_some_iff, toOption_eq_some]

/-- An identity is declared by the instances that are reached and have it as target. -/
theorem mem_declared {site : Site} {id : Identity} :
    (site, id) ∈ ctx.declared sites ↔ site ∈ ctx.reach sites ∧ ctx.target? site = some id := by
  simp only [declared, List.mem_filterMap, Option.map_eq_some_iff, Prod.mk.injEq]
  constructor
  · rintro ⟨_, hsite, _, hid, rfl, rfl⟩
    exact ⟨hsite, hid⟩
  · rintro ⟨hsite, hid⟩
    exact ⟨site, hsite, id, hid, rfl, rfl⟩

/-- If no identity is defined twice, the instance that defines an identity is unique. -/
theorem eq_of_declared (h : ((ctx.declared sites).map (·.2)).Nodup) {site site' : Site}
    {id : Identity} (hsite : (site, id) ∈ ctx.declared sites)
    (hsite' : (site', id) ∈ ctx.declared sites) : site = site' :=
  (Prod.mk.injEq _ _ _ _ ▸ List.inj_on_of_nodup_map h hsite hsite' rfl).1

/-- The instances that define something are among those without bodies. -/
theorem declared_eq_heads : ctx.declared sites =
    (ctx.heads sites).filterMap fun site => (ctx.target? site).map (site, ·) := by
  rw [declared, heads, List.filterMap_map]
  refine List.filterMap_congr fun site _ => ?_
  obtain ⟨s, env⟩ := site
  cases s <;> rfl

/-- Rearranged statements define the same identities by the same instances. -/
theorem declared_perm (h : Stmt.Rearranged ss ss') (env : LoopValues) :
    (ctx.declared (ss.map fun s => ⟨s, env⟩)).Perm
      (ctx.declared (ss'.map fun s => ⟨s, env⟩)) := by
  rw [declared_eq_heads, declared_eq_heads]
  exact (heads_perm h env).filterMap _

/-- If what is reached and defined in a context is reached and defined in another one, that one
defines at least as much. -/
theorem declared_sublist (hreach : (ctx.reach sites).Sublist (ctx'.reach sites))
    (htarget : ∀ site id, ctx.target? site = some id → ctx'.target? site = some id) :
    (ctx.declared sites).Sublist (ctx'.declared sites) := by
  refine List.Sublist.trans ?_ (hreach.filterMap _)
  refine filterMap_sublist_of_imp fun site _ p hp => ?_
  obtain ⟨id, hid, rfl⟩ := Option.map_eq_some_iff.mp hp
  rw [htarget site id hid, Option.map_some]

end Context

namespace Folding

variable {functions : FunctionTable α} {shapes : Table String (List Nat)} {K L : Constants α}

/-- With more constants, left-hand sides have the identities that they had. -/
theorem target?_of_le (hK : K.Le L) {site : Site} {id : Identity}
    (h : (context functions shapes K).target? site = some id) :
    (context functions shapes L).target? site = some id := by
  obtain ⟨lhs, hlhs, hid⟩ := Context.target?_eq_some.mp h
  exact Context.target?_eq_some.mpr ⟨lhs, hlhs, resolveTarget_of_le hK site lhs hid⟩

/-- What an instance supports is the value of the identity that it defines. -/
theorem Supports.target? {ctx : Context α} {site : Site} {id : Identity} {n : Number α}
    (h : Supports ctx site id n) : ctx.target? site = some id := by
  obtain ⟨comment, lhs, rhs, resolved, v, hsite, hid, -⟩ := h
  exact Context.target?_eq_some.mpr ⟨lhs, Site.lhs?_of_assign hsite, hid⟩

/-! ## The value of a logical statement -/

/-- The value that a logical statement has for its identity, if that is a scalar. -/
def supply (ctx : Context α) (site : Site) (rhs : Expr) (id : Identity) :
    Except Failure (Option (Identity × Number α)) := do
  let resolved ← ctx.resolve site rhs
  let v ← resolved.eval ctx.folding
  if v.shape.isEmpty then return some (id, ← v.toNumber) else return none

/-- What an instance adds to the constants: nothing for an identity that has a value already. -/
theorem addition_eq (ctx : Context α) (site : Site) (lhs rhs : Expr) :
    addition ctx site lhs rhs = (do
      let id ← ctx.resolveTarget site lhs
      if ctx.constants.contains id then return none else supply ctx site rhs id) := rfl

/-- A support is a supplied scalar. -/
theorem supports_iff {ctx : Context α} {site : Site} {comment : List String} {lhs rhs : Expr}
    (hsite : site.statement = .assign comment lhs rhs) {id : Identity} {n : Number α} :
    Supports ctx site id n ↔
      ctx.resolveTarget site lhs = .ok id ∧ supply ctx site rhs id = .ok (some (id, n)) := by
  unfold Supports supply
  simp only [bind_eq_ok, lift_eval_eq_ok]
  constructor
  · rintro ⟨_, _, _, resolved, v, hsame, hid, hresolved, hv, hshape, hn⟩
    rw [hsite] at hsame
    cases hsame
    refine ⟨hid, resolved, hresolved, v, hv, ?_⟩
    simp [hshape, hn]
  · rintro ⟨hid, resolved, hresolved, v, hv, h⟩
    split at h
    · next hshape =>
      simp only [bind_eq_ok, lift_eval_eq_ok, pure_eq_ok, Option.some.injEq, Prod.mk.injEq] at h
      obtain ⟨_, hn, -, rfl⟩ := h
      exact ⟨comment, lhs, rhs, resolved, v, hsite, hid, hresolved, hv, hshape, hn⟩
    · cases h

/-- An instance supports one value at most. -/
theorem Supports.unique {ctx : Context α} {site : Site} {id : Identity} {n n' : Number α}
    (h : Supports ctx site id n) (h' : Supports ctx site id n') : n = n' := by
  have hassign := h
  obtain ⟨comment, lhs, rhs, -, -, hsite, -⟩ := hassign
  obtain ⟨-, hn⟩ := (supports_iff hsite).mp h
  obtain ⟨-, hn'⟩ := (supports_iff hsite).mp h'
  rw [hn] at hn'
  cases hn'
  rfl

/-- What a logical statement supplies settles as constants become known. -/
theorem supply_settles (hK : K.Le L) (site : Site) (rhs : Expr) (id : Identity) :
    Settles Failure.IsStuck (supply (context functions shapes K) site rhs id)
      (supply (context functions shapes L) site rhs id) := by
  unfold supply
  refine Settles.bind (Context.resolve_settles (context_below hK) (Site.Alike.refl site) rhs
    fun slot _ => Settles.of_eq (selection_eq site slot)) fun resolved _ => ?_
  refine Settles.bind (Context.eval_folding_settles (context_below hK) resolved).lift
    fun v _ => Settles.refl _

/-- A value that is not known is unavailable. -/
theorem isUnavailable_of_isStuck {e : Failure} (h : e.IsStuck) : e.isUnavailable = true := by
  obtain ⟨id, rfl⟩ := h
  rfl

/-- A step that fails for good fails alike with more constants. -/
theorem error_of_settles {ν : Type} {x y : Except Failure ν} (h : Settles Failure.IsStuck x y)
    {e : Failure} (hx : x = .error e) (he : e.isUnavailable = false) : y = .error e := by
  rcases h with rfl | ⟨e', hstuck, he'⟩
  · exact hx
  · rw [hx, Except.error.injEq] at he'
    subst he'
    rw [isUnavailable_of_isStuck hstuck] at he
    cases he

/-- A visit does not depend on the body of a loop. -/
theorem visit_withoutBody {site site' : Site} (h : site.withoutBody = site'.withoutBody) :
    visit functions shapes K site = visit functions shapes K site' := by
  rcases Site.cases_of_withoutBody h with rfl | ⟨comment, var, sequence, body, body', env, rfl, rfl⟩
  · rfl
  · rfl

/-! ## Fixpoints -/

/-- Constants that contain the data, to which no instance adds anything, and that are no more than
the data and what instances support. -/
structure IsFixpoint (functions : FunctionTable α) (statements : List Stmt) (data : Bindings)
    (C : Constants α) : Prop where
  closed : Closed functions data.shapes statements C
  contains_data : (ofData data).Le C
  supported : ∀ id n, C.get? id = some n → (ofData data).get? id = some n ∨
    ∃ site ∈ (context functions data.shapes C).reach (start statements),
      Supports (context functions data.shapes C) site id n
  /-- No identity is defined by two instances. -/
  nodup : (((context functions data.shapes C).declared (start statements)).map (·.2)).Nodup

variable {statements statements' : List Stmt} {data : Bindings} {C : Constants α}

/-- The constants that are found are a fixpoint. -/
theorem isFixpoint_of_constants (h : constants functions statements data = .ok C)
    (hnodup : (((context functions data.shapes C).declared (start statements)).map (·.2)).Nodup) :
    IsFixpoint functions statements data C :=
  ⟨closed_of_saturate h, ofData_le h, fun _ _ hn => constants_cases h hn, hnodup⟩

namespace IsFixpoint

/-- A constant beside the data is supported by every instance that defines its identity. -/
theorem supports (hC : IsFixpoint functions statements data C) {site : Site}
    (hsite : site ∈ (context functions data.shapes C).reach (start statements)) {id : Identity}
    (hid : (context functions data.shapes C).target? site = some id) {n : Number α}
    (hn : C.get? id = some n) (hdata : (ofData data : Constants α).get? id = none) :
    Supports (context functions data.shapes C) site id n := by
  rcases hC.supported id n hn with hsome | ⟨site', hsite', hsupports⟩
  · rw [hdata] at hsome
    cases hsome
  · have hsame : site = site' := Context.eq_of_declared hC.nodup
      (Context.mem_declared.mpr ⟨hsite, hid⟩)
      (Context.mem_declared.mpr ⟨hsite', hsupports.target?⟩)
    exact hsame ▸ hsupports

/-- The value that an instance supports at a fixpoint is there. -/
theorem get?_of_supports (hC : IsFixpoint functions statements data C) {site : Site}
    (hsite : site ∈ (context functions data.shapes C).reach (start statements)) {id : Identity}
    {n : Number α} (h : Supports (context functions data.shapes C) site id n)
    (hdata : (ofData data : Constants α).get? id = none) : C.get? id = some n := by
  cases hget : C.get? id with
  | some n' => rw [h.unique (hC.supports hsite h.target? hget hdata)]
  | none =>
    have hassign := h
    obtain ⟨comment, lhs, rhs, -, -, hstatement, -⟩ := hassign
    obtain ⟨hid, hsupply⟩ := (supports_iff hstatement).mp h
    have hnew : (context functions data.shapes C).constants.contains id = false :=
      (Table.contains_eq_false_iff C id).mpr hget
    have hadd := hC.closed.addition_cases hsite hstatement
    rw [addition_eq, hid, ok_bind, hnew, if_neg Bool.false_ne_true, hsupply] at hadd
    rcases hadd with hadd | ⟨e, -, hadd⟩ <;> cases hadd

/-- What a logical statement supplies at a fixpoint is no failure for good, whether its identity has
a value there or not. -/
theorem supply_ne_error (hC : IsFixpoint functions statements data C) {site : Site}
    (hsite : site ∈ (context functions data.shapes C).reach (start statements))
    {comment : List String} {lhs rhs : Expr} (hstatement : site.statement = .assign comment lhs rhs)
    {id : Identity} (hid : (context functions data.shapes C).resolveTarget site lhs = .ok id)
    (hdata : (ofData data : Constants α).get? id = none) {e : Failure}
    (he : e.isUnavailable = false) :
    supply (context functions data.shapes C) site rhs id ≠ .error e := by
  intro hsupply
  have htarget := Context.target?_eq_some.mpr ⟨lhs, Site.lhs?_of_assign hstatement, hid⟩
  cases hget : C.get? id with
  | some n =>
    obtain ⟨-, hsome⟩ := (supports_iff hstatement).mp (hC.supports hsite htarget hget hdata)
    rw [hsupply] at hsome
    cases hsome
  | none =>
    have hnew : (context functions data.shapes C).constants.contains id = false :=
      (Table.contains_eq_false_iff C id).mpr hget
    have hadd := hC.closed.addition_cases hsite hstatement
    rw [addition_eq, hid, ok_bind, hnew, if_neg Bool.false_ne_true, hsupply] at hadd
    rcases hadd with hadd | ⟨e', he', hadd⟩
    · cases hadd
    · rw [← Except.error.inj hadd, he] at he'
      cases he'

/-- Nor is its left-hand side. -/
theorem resolveTarget_ne_error (hC : IsFixpoint functions statements data C) {site : Site}
    (hsite : site ∈ (context functions data.shapes C).reach (start statements))
    {comment : List String} {lhs rhs : Expr} (hstatement : site.statement = .assign comment lhs rhs)
    {e : Failure} (he : e.isUnavailable = false) :
    (context functions data.shapes C).resolveTarget site lhs ≠ .error e := by
  intro htarget
  have hadd := hC.closed.addition_cases hsite hstatement
  rw [addition_eq, htarget, error_bind] at hadd
  rcases hadd with hadd | ⟨e', he', hadd⟩
  · cases hadd
  · rw [← Except.error.inj hadd, he] at he'
    cases he'

/-- Below a fixpoint, a logical statement does not fail for good. -/
theorem addition_ne_error (hC : IsFixpoint functions statements data C)
    (hdata : (ofData data).Le K) (hK : K.Le C) {site : Site}
    (hsite : site ∈ (context functions data.shapes C).reach (start statements))
    {comment : List String} {lhs rhs : Expr} (hstatement : site.statement = .assign comment lhs rhs)
    {e : Failure} (he : e.isUnavailable = false) :
    addition (context functions data.shapes K) site lhs rhs ≠ .error e := by
  intro h
  rw [addition_eq, bind_eq_error] at h
  have htarget : Settles Failure.IsStuck
      ((context functions data.shapes K).resolveTarget site lhs)
      ((context functions data.shapes C).resolveTarget site lhs) :=
    Context.resolveTarget_settles (context_below hK) (Site.Alike.refl site) lhs
      fun slot _ => Settles.of_eq (selection_eq site slot)
  rcases h with h | ⟨id, hid, h⟩
  · exact hC.resolveTarget_ne_error hsite hstatement he (error_of_settles htarget h he)
  · split at h
    · cases h
    · next hnew =>
      rw [Bool.not_eq_true] at hnew
      refine hC.supply_ne_error hsite hstatement (htarget.eq_ok hid) (hdata.get?_eq_none hnew) he ?_
      exact error_of_settles (supply_settles hK site rhs id) h he

/-- Below a fixpoint, a visit succeeds and stays below it. -/
theorem exists_visit (hC : IsFixpoint functions statements data C) (hdata : (ofData data).Le K)
    (hK : K.Le C) {site : Site}
    (hsite : site ∈ (context functions data.shapes C).reach (start statements)) :
    ∃ mid, visit functions data.shapes K site = .ok mid ∧ K.Le mid ∧ mid.Le C := by
  unfold visit
  split
  · next comment lhs rhs hstatement =>
    split
    · next id n hadd =>
      obtain ⟨hnew, hsupports⟩ := addition_eq_ok_some hstatement hadd
      have hnew' : K.contains id = false := hnew
      have hn := hC.get?_of_supports hsite (hsupports.of_le hK) (hdata.get?_eq_none hnew')
      exact ⟨_, rfl, Table.le_insert n hnew', hK.insert hn⟩
    · exact ⟨K, rfl, Table.Le.refl K, hK⟩
    · next e hadd =>
      cases he : e.isUnavailable with
      | true => exact ⟨K, if_pos rfl, Table.Le.refl K, hK⟩
      | false => exact absurd hadd (hC.addition_ne_error hdata hK hsite hstatement he)
  · exact ⟨K, rfl, Table.Le.refl K, hK⟩

/-- Below a fixpoint, a step at a rearranged instance succeeds and stays below it. -/
theorem exists_step (hC : IsFixpoint functions statements data C)
    (h : Stmt.Rearranged statements' statements) (hdata : (ofData data).Le K) (hK : K.Le C)
    {site : Site} (hsite : site ∈ (context functions data.shapes C).reach (start statements')) :
    ∃ mid inner, (walker functions data.shapes).step K site = .ok (mid, inner) ∧
      (K.Le mid ∧ mid.Le C) ∧
      (inner = [] ∨ ∃ lo hi, (context functions data.shapes C).Opens site lo hi ∧
        inner = site.inner lo hi) := by
  obtain ⟨site', hsite', hsame⟩ := Context.exists_rearranged h hsite
  cases hrange : site.range? with
  | none =>
    obtain ⟨mid, hvisit, hle⟩ := hC.exists_visit hdata hK hsite'
    rw [visit_withoutBody hsame] at hvisit
    exact ⟨mid, [], Walker.step_eq_ok_iff.mpr (Or.inl ⟨hrange, hvisit, rfl⟩), hle, Or.inl rfl⟩
  | some range =>
    obtain ⟨lower, upper⟩ := range
    have hrange' : site'.range? = some (lower, upper) :=
      (Site.range?_of_withoutBody hsame).trans hrange
    have hsettles : Settles Failure.IsStuck
        ((context functions data.shapes K).evalBounds site lower upper)
        ((context functions data.shapes C).evalBounds site' lower upper) :=
      Context.evalBounds_settles (context_below hK) (Site.alike_of_withoutBody hsame.symm) lower
        upper fun slot _ => Context.selection_alike (Site.alike_of_withoutBody hsame.symm) slot
    cases hbounds : (context functions data.shapes K).evalBounds site lower upper with
    | ok b =>
      obtain ⟨lo, hi⟩ := b
      have hopens : (context functions data.shapes K).Opens site lo hi :=
        ⟨lower, upper, hrange, hbounds⟩
      exact ⟨K, site.inner lo hi,
        Walker.step_eq_ok_iff.mpr (Or.inr (Or.inl ⟨lo, hi, hopens, rfl, rfl⟩)),
        ⟨Table.Le.refl K, hK⟩, Or.inr ⟨lo, hi, opens_of_le hK hopens, rfl⟩⟩
    | error e =>
      -- a bound that fails for good would fail at the fixpoint too
      have hstuck : e.IsStuck := by
        rw [hbounds] at hsettles
        rcases hsettles with heq | ⟨e', he', heq⟩
        · exact hC.closed.isStuck_of_evalBounds hsite' hrange' heq.symm
        · exact Except.error.inj heq ▸ he'
      exact ⟨K, [], Walker.step_eq_ok_iff.mpr (Or.inr (Or.inr
        ⟨lower, upper, hrange, rfl, ⟨e, hstuck, hbounds⟩, rfl, rfl⟩)), ⟨Table.Le.refl K, hK⟩,
        Or.inl rfl⟩

/-- Below a fixpoint, a round through rearranged statements succeeds and stays below it. -/
theorem exists_round (hC : IsFixpoint functions statements data C)
    (h : Stmt.Rearranged statements' statements) (hdata : (ofData data).Le K) (hK : K.Le C) :
    ∃ next, round functions data.shapes statements' K = .ok next ∧
      (ofData data).Le next ∧ next.Le C := by
  have hstep : ∀ site ∈ (context functions data.shapes C).reach (start statements'),
      ∀ L, ((ofData data).Le L ∧ L.Le C) → ∃ mid inner,
        (walker functions data.shapes).step L site = .ok (mid, inner) ∧
        ((ofData data).Le mid ∧ mid.Le C) ∧ (inner = [] ∨
          ∃ lo hi, (context functions data.shapes C).Opens site lo hi ∧
            inner = site.inner lo hi) := by
    intro site hsite L hL
    obtain ⟨mid, inner, hstep, ⟨hmid, hle⟩, hinner⟩ := hC.exists_step h hL.1 hL.2 hsite
    exact ⟨mid, inner, hstep, ⟨hL.1.trans hmid, hle⟩, hinner⟩
  obtain ⟨next, hruns, hnext⟩ := Walker.exists_runs _ ⟨hdata, hK⟩ hstep
  exact ⟨next, Stmt.walkAll_eq_ok_iff.mpr hruns, hnext⟩

/-- All rounds succeed together and end below the fixpoint. -/
theorem exists_saturate (hC : IsFixpoint functions statements data C)
    (h : Stmt.Rearranged statements' statements) (hdata : (ofData data).Le K) (hK : K.Le C) :
    ∃ last, saturate functions data.shapes statements' K = .ok last ∧ last.Le C := by
  induction K using saturate.induct functions data.shapes statements' with
  | case1 K e hround =>
    obtain ⟨next, hnext, -⟩ := hC.exists_round h hdata hK
    rw [hround] at hnext
    cases hnext
  | case2 K next hround hsize =>
    obtain ⟨next', hnext, -, hle⟩ := hC.exists_round h hdata hK
    rw [hround, Except.ok.injEq] at hnext
    subst hnext
    exact ⟨next, by rw [saturate_of_round hround, if_pos hsize], hle⟩
  | case3 K next hround hsize hless ih =>
    obtain ⟨next', hnext, hdata', hle⟩ := hC.exists_round h hdata hK
    rw [hround, Except.ok.injEq] at hnext
    subst hnext
    obtain ⟨last, hlast, hlast'⟩ := ih hdata' hle
    exact ⟨last, by rw [saturate_of_round hround, if_neg hsize, hlast], hlast'⟩
  | case4 K next hround hsize hless => exact absurd (round_less hround hsize) hless

end IsFixpoint

/-! ## Rearranged statements -/

/-- Folding finds no more constants in rearranged statements than in the statements. -/
theorem exists_constants (h : Stmt.Rearranged statements' statements)
    (hC : IsFixpoint functions statements data C) :
    ∃ C', constants functions statements' data = .ok C' ∧ C'.Le C :=
  hC.exists_saturate h (Table.Le.refl _) hC.contains_data

/-- If no identity is defined twice, folding finds the same constants in every order of the
statements. -/
theorem constants_rearranged (h : Stmt.Rearranged statements statements')
    (hC : constants functions statements data = .ok C)
    (hnodup : (((context functions data.shapes C).declared (start statements)).map (·.2)).Nodup) :
    ∃ C', constants functions statements' data = .ok C' ∧ C'.Le C ∧ C.Le C' := by
  obtain ⟨C', hC', hle⟩ := exists_constants h.symm (isFixpoint_of_constants hC hnodup)
  -- fewer constants declare less, so the argument applies the other way round
  have hsub : ((context functions data.shapes C').declared (start statements')).Sublist
      ((context functions data.shapes C).declared (start statements')) :=
    Context.declared_sublist (Context.reach_sublist_reach fun _ _ _ _ => opens_of_le hle)
      fun _ _ => target?_of_le hle
  have hperm : ((context functions data.shapes C).declared (start statements)).Perm
      ((context functions data.shapes C).declared (start statements')) :=
    Context.declared_perm h []
  have hnodup' : (((context functions data.shapes C').declared
      (start statements')).map (·.2)).Nodup :=
    ((hperm.map _).nodup_iff.mp hnodup).sublist (hsub.map _)
  obtain ⟨C'', hC'', hle'⟩ := exists_constants h (isFixpoint_of_constants hC' hnodup')
  rw [hC, Except.ok.injEq] at hC''
  subst hC''
  exact ⟨C', hC', hle, hle'⟩

end Folding

end BayesGraph
