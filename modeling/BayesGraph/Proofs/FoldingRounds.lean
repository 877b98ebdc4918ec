import Mathlib.Data.Set.Card
import BayesGraph.Proofs.FoldingErrors

/-!
# The number of rounds

Loop bounds and indices are computed from the constants that a round extends, so new statement
instances can appear from round to round. Still only finitely many appear before the rounds end.
Constants stay as they are once they are known, and each round but the last one adds a constant
whose identity had none; this identity is the left-hand side of an instance that has appeared. So
the identities that are still missing descend, and there is at most one round more than there are
left-hand sides.
-/

set_option autoImplicit false

namespace BayesGraph

variable {α : Type} [Scalar α]

/-! ## A walk comes to finitely many instances -/

namespace Walker

variable {σ : Type} {w : Walker α σ} {state : σ}

/-- A run without instances comes to none. -/
theorem not_comes_nil {state' : σ} {site' : Site} : ¬ w.Comes state [] state' site' := by
  rintro ⟨⟩

/-- Behind its first instance, a walk goes on with what the step there leads to. -/
theorem comes_cons_iff {site : Site} {rest : List Site} {state' : σ} {site' : Site} :
    w.Comes state (site :: rest) state' site' ↔ (state', site') = (state, site) ∨
      ∃ mid inner, w.step state site = .ok (mid, inner) ∧
        w.Comes mid (inner ++ rest) state' site' := by
  constructor
  · rintro (_ | ⟨hstep, hrest⟩)
    · exact Or.inl rfl
    · exact Or.inr ⟨_, _, hstep, hrest⟩
  · rintro (heq | ⟨mid, inner, hstep, hrest⟩)
    · cases heq
      exact .here _ _ _
    · exact .later hstep hrest

/-- If the walk from the next state on comes to finitely many instances, the whole walk does. -/
theorem finite_comes_cons {site : Site} {rest : List Site}
    (h : ∀ mid inner, w.step state site = .ok (mid, inner) →
      {p : σ × Site | w.Comes mid (inner ++ rest) p.1 p.2}.Finite) :
    {p : σ × Site | w.Comes state (site :: rest) p.1 p.2}.Finite := by
  cases hstep : w.step state site with
  | error e =>
    refine (Set.finite_singleton (state, site)).subset fun p hp => ?_
    rcases comes_cons_iff.mp hp with heq | ⟨_, _, hok, -⟩
    · exact heq
    · rw [hstep] at hok
      cases hok
  | ok next =>
    obtain ⟨mid, inner⟩ := next
    refine ((h mid inner hstep).insert (state, site)).subset fun p hp => ?_
    rcases comes_cons_iff.mp hp with heq | ⟨_, _, hok, hrest⟩
    · exact Or.inl heq
    · rw [hstep] at hok
      cases hok
      exact Or.inr hrest

/-- A run that ends comes to finitely many instances. -/
theorem Trace.finite_comes {sites : List Site} {events : List (σ × Site)} {state' : σ}
    (h : w.Trace state sites events state') :
    {p : σ × Site | w.Comes state sites p.1 p.2}.Finite := by
  induction h with
  | done => exact Set.finite_empty.subset fun p hp => not_comes_nil hp
  | step hstep _ ih =>
    refine finite_comes_cons fun _ _ hok => ?_
    rw [hstep] at hok
    cases hok
    exact ih

/-- A run that fails comes to finitely many instances. -/
theorem Fails.finite_comes {sites : List Site} {e : Failure} (h : w.Fails state sites e) :
    {p : σ × Site | w.Comes state sites p.1 p.2}.Finite := by
  obtain ⟨state', site', hcomes, herror⟩ := h
  induction hcomes with
  | here =>
    refine finite_comes_cons fun _ _ hok => ?_
    rw [herror] at hok
    cases hok
  | later hstep _ ih =>
    refine finite_comes_cons fun _ _ hok => ?_
    rw [hstep] at hok
    cases hok
    exact ih herror

end Walker

/-- A walk through statements comes to finitely many instances, whether it fails or not. -/
theorem Stmt.finite_comes {σ : Type} (w : Walker α σ) (env : LoopValues) (state : σ)
    (ss : List Stmt) :
    {p : σ × Site | w.Comes state (ss.map fun s => ⟨s, env⟩) p.1 p.2}.Finite := by
  cases h : walkAll w env state ss with
  | ok state' =>
    obtain ⟨events, htrace⟩ := walkAll_eq_ok_iff.mp h
    exact htrace.finite_comes
  | error e => exact (walkAll_eq_error_iff.mp h).finite_comes

namespace Folding

variable {functions : FunctionTable α} {shapes : Table String (List Nat)}
  {statements : List Stmt} {K L : Constants α} {site : Site}

/-! ## The instances that appear -/

/-- In some round from the constants `K` on, folding comes to an instance when it knows the
constants `L`. -/
inductive ComesTo (functions : FunctionTable α) (shapes : Table String (List Nat))
    (statements : List Stmt) : Constants α → Constants α → Site → Prop
  | now {K L : Constants α} {site : Site}
      (hcomes : (walker functions shapes).Comes K (start statements) L site) :
      ComesTo functions shapes statements K L site
  | later {K next L : Constants α} {site : Site}
      (hround : round functions shapes statements K = .ok next) (hsize : next.size ≠ K.size)
      (hnext : ComesTo functions shapes statements next L site) :
      ComesTo functions shapes statements K L site

/-- Folding fails exactly if it comes to an instance at which its step fails. -/
theorem saturate_eq_error_iff {f : Failure} :
    saturate functions shapes statements K = .error f ↔
      ∃ L site, ComesTo functions shapes statements K L site ∧
        (walker functions shapes).step L site = .error f := by
  constructor
  · intro h
    have hsaturates := saturates_saturate functions shapes statements K
    generalize saturate functions shapes statements K = outcome at hsaturates h
    induction hsaturates with
    | failed hround =>
      cases h
      obtain ⟨L, site, hcomes, hstep⟩ := Stmt.walkAll_eq_error_iff.mp hround
      exact ⟨L, site, .now hcomes, hstep⟩
    | settled => cases h
    | again hround hsize _ ih =>
      obtain ⟨L, site, hcomes, hstep⟩ := ih h
      exact ⟨L, site, .later hround hsize hcomes, hstep⟩
  · rintro ⟨L, site, hcomes, hstep⟩
    induction hcomes with
    | now hcomes =>
      have hround : round functions shapes statements _ = .error f :=
        Stmt.walkAll_eq_error_iff.mpr ⟨_, _, hcomes, hstep⟩
      rw [saturate, hround]
    | later hround hsize _ ih => rw [saturate_of_round hround, if_neg hsize, ih hstep]

/-- What is known when folding comes to an instance is known in the end, and then leads there. -/
theorem ComesTo.final {C : Constants α} (h : ComesTo functions shapes statements K L site)
    (hsaturate : saturate functions shapes statements K = .ok C) :
    L.Le C ∧ site ∈ (context functions shapes C).reach (start statements) := by
  induction h with
  | @now K L site hcomes =>
    cases hround : round functions shapes statements K with
    | error f =>
      rw [saturate, hround] at hsaturate
      cases hsaturate
    | ok next =>
      have hnext : next.Le C := by
        rw [saturate_of_round hround] at hsaturate
        split at hsaturate
        · cases hsaturate
          exact Table.Le.refl _
        · exact le_of_saturate hsaturate
      obtain ⟨events, htrace⟩ := Stmt.walkAll_eq_ok_iff.mp hround
      have hmem := hcomes.mem_events htrace
      obtain ⟨rest, later, hrest, -⟩ := htrace.of_mem hmem
      have hle : L.Le C := (le_of_runs ⟨_, hrest⟩).trans hnext
      have hreach := htrace.mem_reach
        (fun e _ mid inner hstep site lo hi => opens_of_le (le_of_step hstep))
        (Context.subset_reach _) _ hmem
      exact ⟨hle, reach_of_le hle hreach⟩
  | later hround hsize _ ih =>
    rw [saturate_of_round hround, if_neg hsize] at hsaturate
    exact ih hsaturate

/-- Folding comes to finitely many instances. -/
theorem finite_comesTo (functions : FunctionTable α) (shapes : Table String (List Nat))
    (statements : List Stmt) (K : Constants α) :
    {p : Constants α × Site | ComesTo functions shapes statements K p.1 p.2}.Finite := by
  have hnow (K : Constants α) := Stmt.finite_comes (walker functions shapes) [] K statements
  have hsaturates := saturates_saturate functions shapes statements K
  generalize saturate functions shapes statements K = outcome at hsaturates
  induction hsaturates with
  | @failed K e hround =>
    refine (hnow K).subset fun p hp => ?_
    rcases hp with hcomes | ⟨hround', -, -⟩
    · exact hcomes
    · rw [hround] at hround'
      cases hround'
  | @settled K next hround hsize =>
    refine (hnow K).subset fun p hp => ?_
    rcases hp with hcomes | ⟨hround', hsize', -⟩
    · exact hcomes
    · rw [hround] at hround'
      cases hround'
      exact absurd hsize hsize'
  | @again K next outcome hround hsize _ ih =>
    refine ((hnow K).union ih).subset fun p hp => ?_
    rcases hp with hcomes | ⟨hround', -, hnext⟩
    · exact Or.inl hcomes
    · rw [hround] at hround'
      cases hround'
      exact Or.inr hnext

/-- The identities on the left-hand sides of the logical statement instances to which folding
comes. -/
def targets (functions : FunctionTable α) (shapes : Table String (List Nat))
    (statements : List Stmt) (K : Constants α) : Set Identity :=
  {id | ∃ L site comment lhs rhs, ComesTo functions shapes statements K L site ∧
    site.statement = .assign comment lhs rhs ∧
    (context functions shapes L).resolveTarget site lhs = .ok id}

/-- There are finitely many targets. -/
theorem finite_targets (functions : FunctionTable α) (shapes : Table String (List Nat))
    (statements : List Stmt) (K : Constants α) :
    (targets functions shapes statements K).Finite := by
  have himage := (finite_comesTo functions shapes statements K).image
    fun p => (context functions shapes p.1).target? p.2
  refine (himage.preimage (Option.some_injective _).injOn).subset ?_
  rintro id ⟨L, site, comment, lhs, rhs, hcomes, hstatement, hid⟩
  exact ⟨(L, site), hcomes,
    Context.target?_eq_some.mpr ⟨lhs, Site.lhs?_of_assign hstatement, hid⟩⟩

/-- Later rounds have no other left-hand sides. -/
theorem targets_subset {next : Constants α}
    (hround : round functions shapes statements K = .ok next) (hsize : next.size ≠ K.size) :
    targets functions shapes statements next ⊆ targets functions shapes statements K := by
  rintro id ⟨L, site, comment, lhs, rhs, hcomes, hsite, hid⟩
  exact ⟨L, site, comment, lhs, rhs, .later hround hsize hcomes, hsite, hid⟩

/-! ## What a round adds -/

/-- A round that does not end the rounds adds the identity of a left-hand side that has appeared. -/
theorem exists_new_of_round {next : Constants α}
    (hround : round functions shapes statements K = .ok next) (hsize : next.size ≠ K.size) :
    ∃ id ∈ targets functions shapes statements K,
      K.contains id = false ∧ next.contains id = true := by
  obtain ⟨events, htrace⟩ := Stmt.walkAll_eq_ok_iff.mp hround
  have hinvariant := htrace.invariant (fun L => K.Le L ∧ (L = K ∨
    ∃ id ∈ targets functions shapes statements K, K.contains id = false ∧ L.contains id = true))
    ⟨Table.Le.refl K, Or.inl rfl⟩ ?_
  · rcases hinvariant.1.2 with rfl | hnew
    · exact absurd rfl hsize
    · exact hnew
  · rintro ⟨L, site⟩ he mid inner ⟨hle, hL⟩ hstep
    rcases step_cases hstep with rfl | ⟨id, n, hnew, hsupports, rfl⟩
    · exact ⟨hle, hL⟩
    · obtain ⟨comment, lhs, rhs, -, -, hstatement, hid, -⟩ := hsupports
      have htarget : id ∈ targets functions shapes statements K :=
        ⟨L, site, comment, lhs, rhs, .now (htrace.comes he), hstatement, hid⟩
      exact ⟨hle.trans (Table.le_insert n hnew), Or.inr ⟨id, htarget,
        hle.contains_eq_false hnew, Table.contains_insert_self L id n⟩⟩

/-- The identities of left-hand sides that are not constants. -/
def missing (functions : FunctionTable α) (shapes : Table String (List Nat))
    (statements : List Stmt) (K : Constants α) : Set Identity :=
  {id ∈ targets functions shapes statements K | K.contains id = false}

/-- There are finitely many targets without a value. -/
theorem finite_missing (functions : FunctionTable α) (shapes : Table String (List Nat))
    (statements : List Stmt) (K : Constants α) :
    (missing functions shapes statements K).Finite :=
  (finite_targets functions shapes statements K).subset fun _ h => h.1

/-- A round that does not end the rounds leaves fewer identities without a value. -/
theorem ncard_missing_lt {next : Constants α}
    (hround : round functions shapes statements K = .ok next) (hsize : next.size ≠ K.size) :
    (missing functions shapes statements next).ncard <
      (missing functions shapes statements K).ncard := by
  refine Set.ncard_lt_ncard ⟨?_, ?_⟩ (finite_missing functions shapes statements K)
  · rintro id ⟨htarget, hnew⟩
    have hle := Table.le_of_entries_prefix (entries_prefix_of_round hround)
    exact ⟨targets_subset hround hsize htarget, hle.contains_eq_false hnew⟩
  · obtain ⟨id, htarget, hnew, hknown⟩ := exists_new_of_round hround hsize
    intro hsub
    have hmissing := (hsub ⟨htarget, hnew⟩).2
    rw [hknown] at hmissing
    cases hmissing

/-! ## The rounds one after the other -/

/-- Rounds of some kind until one adds nothing or fails, with the constants at the beginning of each
round and the outcome. -/
inductive Rounds (round : Constants α → Except Failure (Constants α)) :
    Constants α → List (Constants α) → Except Failure (Constants α) → Prop
  | failed {K : Constants α} {e : Failure} (hround : round K = .error e) :
      Rounds round K [K] (.error e)
  | settled {K next : Constants α} (hround : round K = .ok next) (hsize : next.size = K.size) :
      Rounds round K [K] (.ok next)
  | again {K next : Constants α} {Ks : List (Constants α)}
      {outcome : Except Failure (Constants α)} (hround : round K = .ok next)
      (hsize : next.size ≠ K.size) (hnext : Rounds round next Ks outcome) :
      Rounds round K (K :: Ks) outcome

omit [Scalar α] in
/-- Rounds that end are finitely many. -/
theorem Saturates.exists_rounds {round : Constants α → Except Failure (Constants α)}
    {outcome : Except Failure (Constants α)} (h : Saturates round K outcome) :
    ∃ Ks, Rounds round K Ks outcome := by
  induction h with
  | failed hround => exact ⟨_, .failed hround⟩
  | settled hround hsize => exact ⟨_, .settled hround hsize⟩
  | again hround hsize _ ih =>
    obtain ⟨Ks, hKs⟩ := ih
    exact ⟨_, .again hround hsize hKs⟩

namespace Rounds

variable {Ks : List (Constants α)} {outcome : Except Failure (Constants α)}

/-- There is at most one round more than identities that have no value at first. -/
theorem length_le (h : Rounds (round functions shapes statements) K Ks outcome) :
    Ks.length ≤ (missing functions shapes statements K).ncard + 1 := by
  induction h with
  | failed hround => exact Nat.succ_le_succ (Nat.zero_le _)
  | settled hround hsize => exact Nat.succ_le_succ (Nat.zero_le _)
  | again hround hsize _ ih =>
    have hlt := ncard_missing_lt hround hsize
    rw [List.length_cons]
    omega

omit [Scalar α] in
/-- The first round begins with the constants from which the rounds start. -/
theorem head?_eq {round : Constants α → Except Failure (Constants α)}
    (h : Rounds round K Ks outcome) : Ks.head? = some K := by
  cases h <;> rfl

/-- From each round to the next one, the entries stay in place and a left-hand side gets a value. -/
theorem isChain (h : Rounds (round functions shapes statements) K Ks outcome) :
    Ks.IsChain fun L next => L.entries <+: next.entries ∧
      ∃ id ∈ targets functions shapes statements K,
        L.contains id = false ∧ next.contains id = true := by
  induction h with
  | failed hround => exact .singleton _
  | settled hround hsize => exact .singleton _
  | again hround hsize hnext ih =>
    refine List.isChain_cons.mpr ⟨fun L hL => ?_, ih.imp ?_⟩
    · rw [hnext.head?_eq, Option.mem_some_iff] at hL
      subst hL
      exact ⟨entries_prefix_of_round hround, exists_new_of_round hround hsize⟩
    · rintro L L' ⟨hbelow, id, htarget, hnew⟩
      exact ⟨hbelow, id, targets_subset hround hsize htarget, hnew⟩

end Rounds

/-- A step leaves the constants as they are, or it puts one behind them whose identity is new. -/
theorem entries_of_step {mid : Constants α} {inner : List Site}
    (h : (walker functions shapes).step L site = .ok (mid, inner)) :
    mid.entries = L.entries ∨
      ∃ id n, L.contains id = false ∧ mid.entries = L.entries ++ [(id, n)] := by
  rcases step_cases h with rfl | ⟨id, n, hnew, -, rfl⟩
  · exact Or.inl rfl
  · exact Or.inr ⟨id, n, hnew, Table.entries_insert_of_new n hnew⟩

/-- Folding consists of finitely many rounds, at most one more than identities on the left-hand
sides of the logical statement instances that appear. These instances are finitely many. Each round
but the last one gives a value to one of these identities that had none, and no step changes a value
that is there. -/
theorem rounds_of_constants (functions : FunctionTable α) (statements : List Stmt)
    (data : Bindings) :
    ∃ Ks, Rounds (round functions data.shapes statements) (ofData data) Ks
        (constants functions statements data) ∧
      Ks.length ≤ (targets functions data.shapes statements (ofData data)).ncard + 1 ∧
      (Ks.IsChain fun K next => K.entries <+: next.entries ∧
        ∃ id ∈ targets functions data.shapes statements (ofData data),
          K.contains id = false ∧ next.contains id = true) ∧
      {site | ∃ L, ComesTo functions data.shapes statements (ofData data) L site}.Finite ∧
      (targets functions data.shapes statements (ofData data)).Finite ∧
      ∀ L site, ComesTo functions data.shapes statements (ofData data) L site →
        ∀ mid inner, (walker functions data.shapes).step L site = .ok (mid, inner) →
          mid.entries = L.entries ∨
            ∃ id n, L.contains id = false ∧ mid.entries = L.entries ++ [(id, n)] := by
  obtain ⟨Ks, hKs⟩ :=
    (saturates_saturate functions data.shapes statements (ofData data)).exists_rounds
  have htargets := finite_targets functions data.shapes statements (ofData data)
  have hsites : {site | ∃ L,
      ComesTo functions data.shapes statements (ofData data) L site}.Finite := by
    refine ((finite_comesTo functions data.shapes statements (ofData data)).image (·.2)).subset ?_
    rintro site ⟨L, hcomes⟩
    exact ⟨(L, site), hcomes, rfl⟩
  have hmissing : (missing functions data.shapes statements (ofData data)).ncard ≤
      (targets functions data.shapes statements (ofData data)).ncard :=
    Set.ncard_le_ncard (fun _ h => h.1) htargets
  exact ⟨Ks, hKs, hKs.length_le.trans (Nat.succ_le_succ hmissing), hKs.isChain, hsites, htargets,
    fun L site _ mid inner hstep => entries_of_step hstep⟩

end Folding

end BayesGraph
