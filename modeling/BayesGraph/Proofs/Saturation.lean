import BayesGraph.Folding
import BayesGraph.Proofs.Walks

/-!
# How constants are found

A round of folding walks through the model and adds the values of logical statements; rounds are
repeated until one adds nothing. Whatever is added is supported: it is the value of a logical
statement instance to which the constants known at that time lead. `constants_induction` is the
principle behind all that follows: what holds of the data, and passes on to every supported
addition, holds of the constants that are found.
-/

set_option autoImplicit false

namespace BayesGraph.Folding

open Outcome

variable {α : Type} [Scalar α]

/-- In a context, an instance of a logical statement gives an identity a scalar value. -/
def Supports (ctx : Context α) (site : Site) (id : Identity) (n : Number α) : Prop :=
  ∃ comment lhs rhs resolved v, site.statement = .assign comment lhs rhs ∧
    ctx.resolveTarget site lhs = .ok id ∧ ctx.resolve site rhs = .ok resolved ∧
    resolved.eval ctx.folding = .ok v ∧ v.shape.isEmpty = true ∧ v.toNumber = .ok n

/-- What an instance supports stays supported as constants become known. -/
theorem Supports.of_below {ctx ctx' : Context α} {site : Site} {id : Identity} {n : Number α}
    (h : Supports ctx site id n) (hbelow : ctx.Below ctx')
    (hslots : ∀ slot, Settles Failure.IsStuck (ctx.selection site slot)
      (ctx'.selection site slot)) : Supports ctx' site id n := by
  obtain ⟨comment, lhs, rhs, resolved, v, hsite, hid, hresolved, hv, hshape, hn⟩ := h
  have hid' := (Context.resolveTarget_settles hbelow (Site.Alike.refl site) lhs
    fun slot _ => hslots slot).eq_ok hid
  have hresolved' := (Context.resolve_settles hbelow (Site.Alike.refl site) rhs
    fun slot _ => hslots slot).eq_ok hresolved
  have hv' := (Context.eval_folding_settles hbelow resolved).eq_ok hv
  exact ⟨comment, lhs, rhs, resolved, v, hsite, hid', hresolved', hv', hshape, hn⟩

/-- An addition is the supported value of an identity without one. -/
theorem addition_eq_ok_some {ctx : Context α} {site : Site} {comment : List String} {lhs rhs : Expr}
    (hsite : site.statement = .assign comment lhs rhs) {id : Identity} {n : Number α}
    (h : addition ctx site lhs rhs = .ok (some (id, n))) :
    ctx.constants.contains id = false ∧ Supports ctx site id n := by
  unfold addition at h
  rw [bind_eq_ok] at h
  obtain ⟨id', hid, h⟩ := h
  split at h
  · cases h
  · next hnew =>
    simp only [bind_eq_ok, lift_eval_eq_ok] at h
    obtain ⟨resolved, hresolved, v, hv, h⟩ := h
    split at h
    · next hshape =>
      simp only [bind_eq_ok, lift_eval_eq_ok, pure_eq_ok, Option.some.injEq, Prod.mk.injEq] at h
      obtain ⟨n', hn, rfl, rfl⟩ := h
      exact ⟨by simpa using hnew,
        comment, lhs, rhs, resolved, v, hsite, hid, hresolved, hv, hshape, hn⟩
    · cases h

variable {functions : FunctionTable α} {shapes : Table String (List Nat)} {K K' : Constants α}

/-- A visit changes nothing, or it adds one supported value. -/
theorem visit_cases {site : Site} (h : visit functions shapes K site = .ok K') :
    K' = K ∨ ∃ id n, K.contains id = false ∧ Supports (context functions shapes K) site id n ∧
      K' = K.insert id n := by
  unfold visit at h
  split at h
  · next comment lhs rhs hsite =>
    split at h
    · next id n hadd =>
      cases h
      obtain ⟨hnew, hsupports⟩ := addition_eq_ok_some hsite hadd
      exact Or.inr ⟨id, n, hnew, hsupports, rfl⟩
    · cases h
      exact Or.inl rfl
    · split at h
      · cases h
        exact Or.inl rfl
      · cases h
  · cases h
    exact Or.inl rfl

/-! ## More constants -/

omit [Scalar α] in
/-- With more constants, a context of folding knows more. -/
theorem context_below (h : K.Le K') :
    (context functions shapes K).Below (context functions shapes K') :=
  ⟨rfl, h⟩

omit [Scalar α] in
/-- The positions that slots select do not depend on constants. -/
theorem selection_eq (site : Site) (slot : Slot) :
    (context functions shapes K).selection site slot =
      (context functions shapes K').selection site slot :=
  rfl

/-- With more constants, the same statements support the same values. -/
theorem Supports.of_le {site : Site} {id : Identity} {n : Number α}
    (h : Supports (context functions shapes K) site id n) (hK : K.Le K') :
    Supports (context functions shapes K') site id n :=
  h.of_below (context_below hK) fun slot => Settles.of_eq (selection_eq site slot)

/-- With more constants, loops have the bounds that they had. -/
theorem opens_of_le {site : Site} {lo hi : Int} (hK : K.Le K')
    (h : (context functions shapes K).Opens site lo hi) :
    (context functions shapes K').Opens site lo hi := by
  obtain ⟨start, stop, hrange, hbounds⟩ := h
  refine ⟨start, stop, hrange, ?_⟩
  exact (Context.evalBounds_settles (context_below hK) (Site.Alike.refl site) start stop
    fun slot _ => Settles.of_eq (selection_eq site slot)).eq_ok hbounds

/-- With more constants, at least the same instances are reached. -/
theorem reach_of_le (hK : K.Le K') {sites : List Site} {site : Site}
    (h : site ∈ (context functions shapes K).reach sites) :
    site ∈ (context functions shapes K').reach sites :=
  (Context.reach_sublist_reach fun _ _ _ _ => opens_of_le hK).subset h

/-! ## Rounds -/

/-- The walk of a round. -/
def walker (functions : FunctionTable α) (shapes : Table String (List Nat)) :
    Walker α (Constants α) :=
  ⟨false, context functions shapes, visit functions shapes⟩

/-- A step of a round changes nothing, or it adds one supported value. -/
theorem step_cases {site : Site} {inner : List Site}
    (h : (walker functions shapes).step K site = .ok (K', inner)) :
    K' = K ∨ ∃ id n, K.contains id = false ∧ Supports (context functions shapes K) site id n ∧
      K' = K.insert id n := by
  rcases Walker.step_eq_ok_iff.mp h with ⟨-, hvisit, -⟩ | ⟨_, _, -, rfl, -⟩ | ⟨_, _, -, -, -, rfl, -⟩
  · exact visit_cases hvisit
  · exact Or.inl rfl
  · exact Or.inl rfl

/-- No step loses a constant. -/
theorem le_of_step {site : Site} {inner : List Site}
    (h : (walker functions shapes).step K site = .ok (K', inner)) : K.Le K' := by
  rcases step_cases h with rfl | ⟨id, n, hnew, -, rfl⟩
  · exact Table.Le.refl _
  · exact Table.le_insert n hnew

/-- Nor does a walk. -/
theorem le_of_runs {sites : List Site} (h : (walker functions shapes).Runs K sites K') :
    K.Le K' := by
  obtain ⟨events, h⟩ := h
  exact (h.invariant (K.Le ·) (Table.Le.refl _) fun e _ mid inner hle hstep =>
    hle.trans (le_of_step hstep)).1

/-- The instances of a list of statements outside of all loops. -/
def start (statements : List Stmt) : List Site := statements.map fun s => ⟨s, []⟩

/-- What holds of some constants, and passes on to every addition with support where the constants
lead to, holds after a round. -/
theorem round_induction {statements : List Stmt} {P : Constants α → Prop}
    (h : round functions shapes statements K = .ok K') (hK : P K)
    (hadd : ∀ L site id n, P L → L.contains id = false →
      site ∈ (context functions shapes L).reach (start statements) →
      Supports (context functions shapes L) site id n → P (L.insert id n)) : P K' := by
  obtain ⟨events, htrace⟩ := Stmt.walkAll_eq_ok_iff.mp h
  have hreach : ∀ e ∈ events, e.2 ∈ (context functions shapes e.1).reach (start statements) :=
    htrace.mem_reach (fun e _ mid inner hstep site lo hi => opens_of_le (le_of_step hstep))
      (Context.subset_reach _)
  refine (htrace.invariant P hK fun e he mid inner hP hstep => ?_).1
  rcases step_cases hstep with rfl | ⟨id, n, hnew, hsupports, rfl⟩
  · exact hP
  · exact hadd e.1 e.2 id n hP hnew (hreach e he) hsupports

/-- The same for all rounds. -/
theorem saturate_induction {statements : List Stmt} {P : Constants α → Prop}
    (h : saturate functions shapes statements K = .ok K') (hK : P K)
    (hadd : ∀ L site id n, P L → L.contains id = false →
      site ∈ (context functions shapes L).reach (start statements) →
      Supports (context functions shapes L) site id n → P (L.insert id n)) : P K' := by
  induction K using saturate.induct functions shapes statements with
  | case1 K e hround =>
    rw [saturate, hround] at h
    cases h
  | case2 K next hround hsize =>
    rw [saturate, hround] at h
    dsimp only at h
    rw [if_pos hsize] at h
    cases h
    exact round_induction hround hK hadd
  | case3 K next hround hsize hless ih =>
    rw [saturate, hround] at h
    dsimp only at h
    rw [if_neg hsize, dif_pos hless] at h
    exact ih h (round_induction hround hK hadd)
  | case4 K next hround hsize hless =>
    rw [saturate, hround] at h
    dsimp only at h
    rw [if_neg hsize, dif_neg hless] at h
    cases h
    exact round_induction hround hK hadd

/-- No constant is lost on the way to those that are found. -/
theorem le_of_saturate {statements : List Stmt}
    (h : saturate functions shapes statements K = .ok K') : K.Le K' :=
  saturate_induction (P := fun L => K.Le L) h (Table.Le.refl _)
    fun _ _ _ n hL hnew _ _ => hL.trans (Table.le_insert n hnew)

/-! ## The constants that are found -/

/-- The values of the data as constants. -/
def ofData (data : Bindings) : Constants α := data.values.map fun n => n.map Scalar.ofDouble

section Constants

variable {statements : List Stmt} {data : Bindings} {C : Constants α}

/-- What holds of the data, and passes on to every addition with support where the constants lead
to, holds of the constants that are found. -/
theorem constants_induction {P : Constants α → Prop}
    (h : constants functions statements data = .ok C) (hdata : P (ofData data))
    (hadd : ∀ L site id n, P L → L.contains id = false →
      site ∈ (context functions data.shapes L).reach (start statements) →
      Supports (context functions data.shapes L) site id n → P (L.insert id n)) : P C :=
  saturate_induction h hdata hadd

/-- The values of the data are constants. -/
theorem ofData_le (h : constants functions statements data = .ok C) : (ofData data).Le C :=
  le_of_saturate h

/-- A constant is a value of the data, or a statement instance supports it. -/
theorem constants_cases (h : constants functions statements data = .ok C) {id : Identity}
    {n : Number α} (hn : C.get? id = some n) :
    (ofData data).get? id = some n ∨
      ∃ site ∈ (context functions data.shapes C).reach (start statements),
        Supports (context functions data.shapes C) site id n := by
  refine constants_induction (P := fun L => ∀ id n, L.get? id = some n →
    (ofData data).get? id = some n ∨
      ∃ site ∈ (context functions data.shapes L).reach (start statements),
        Supports (context functions data.shapes L) site id n) h ?_ ?_ id n hn
  · exact fun id n hn => Or.inl hn
  · intro L site id n hL hnew hsite hsupports id' n' hn'
    have hle := Table.le_insert n hnew
    rw [Table.get?_insert] at hn'
    split at hn'
    · next hid =>
      cases hn'
      subst hid
      exact Or.inr ⟨site, reach_of_le hle hsite, hsupports.of_le hle⟩
    · rcases hL id' n' hn' with hdata | ⟨site', hsite', hsupports'⟩
      · exact Or.inl hdata
      · exact Or.inr ⟨site', reach_of_le hle hsite', hsupports'.of_le hle⟩

end Constants

end BayesGraph.Folding
