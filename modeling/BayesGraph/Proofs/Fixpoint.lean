import BayesGraph.Proofs.Saturation

/-!
# Folding ends at a fixpoint

Rounds of folding are repeated only while the number of unknown loops and statements descends, level
by level. `round_less` says that it always does: a round that adds a value opens a loop that was
closed, or leaves fewer statements without a value in the loops that were open. So the rounds
never end before one adds nothing, and the constants that are found are closed
(`closed_of_saturate`): at every instance to which they lead, a further round changes nothing.
-/

set_option autoImplicit false

namespace BayesGraph

/-! ## Lists of levels -/

/-- At the first level where the two lists differ in number, the first one has fewer members. -/
def Lower (limit : Nat) (xs ys : List Nat) : Prop :=
  ∃ d ≤ limit, xs.count d < ys.count d ∧ ∀ e < d, xs.count e = ys.count e

/-- The first list is lower, or nothing has changed. -/
def LowerEq (limit : Nat) (xs ys : List Nat) : Prop := xs = ys ∨ Lower limit xs ys

namespace Lower

variable {limit : Nat} {xs ys xs' ys' : List Nat}

/-- Together with a list that is not higher, a lower list is lower. -/
theorem append (h : Lower limit xs ys) (h' : LowerEq limit xs' ys') :
    Lower limit (xs ++ xs') (ys ++ ys') := by
  obtain ⟨d, hd, hlt, heq⟩ := h
  rcases h' with rfl | ⟨d', hd', hlt', heq'⟩
  · refine ⟨d, hd, ?_, fun e he => ?_⟩
    · rw [List.count_append, List.count_append]
      omega
    · rw [List.count_append, List.count_append, heq e he]
  · -- the first level where one of the parts differs decides
    refine ⟨min d d', Nat.le_trans (Nat.min_le_left d d') hd, ?_, fun e he => ?_⟩
    · rw [List.count_append, List.count_append]
      rcases Nat.lt_trichotomy d d' with hlevel | rfl | hlevel
      · rw [Nat.min_eq_left (Nat.le_of_lt hlevel), heq' d hlevel]
        omega
      · rw [Nat.min_self]
        omega
      · rw [Nat.min_eq_right (Nat.le_of_lt hlevel), heq d' hlevel]
        omega
    · rw [List.count_append, List.count_append, heq e (by omega), heq' e (by omega)]

/-- A list that is lower behind one that is not higher. -/
theorem append_left (h : Lower limit xs' ys') (h' : LowerEq limit xs ys) :
    Lower limit (xs ++ xs') (ys ++ ys') := by
  obtain ⟨d, hd, hlt, heq⟩ := h.append h'
  refine ⟨d, hd, ?_, fun e he => ?_⟩
  · rw [List.count_append, List.count_append] at hlt ⊢
    omega
  · have hcount := heq e he
    rw [List.count_append, List.count_append] at hcount ⊢
    omega

/-- Members of a higher level do not matter beside one that is left out. -/
theorem of_forall_lt {depth : Nat} (hdepth : depth ≤ limit) (h : ∀ x ∈ xs, depth < x) :
    Lower limit xs [depth] := by
  have hnone : ∀ e ≤ depth, xs.count e = 0 := fun e he =>
    List.count_eq_zero.mpr fun hmem => absurd (h e hmem) (by omega)
  refine ⟨depth, hdepth, ?_, fun e he => ?_⟩
  · rw [hnone depth (Nat.le_refl depth)]
    simp
  · rw [hnone e (by omega), List.count_eq_zero.mpr]
    simp only [List.mem_singleton]
    omega

end Lower

namespace LowerEq

variable {limit : Nat} {xs ys xs' ys' : List Nat}

/-- Every list is lower than itself or equal to it. -/
theorem refl (xs : List Nat) : LowerEq limit xs xs := Or.inl rfl

/-- Lists that are lower than others or equal to them are so behind each other. -/
theorem append (h : LowerEq limit xs ys) (h' : LowerEq limit xs' ys') :
    LowerEq limit (xs ++ xs') (ys ++ ys') := by
  rcases h with rfl | h
  · rcases h' with rfl | h'
    · exact refl _
    · exact Or.inr (h'.append_left (refl xs))
  · exact Or.inr (h.append h')

/-- Lists that are lower than others or equal to them one by one are so together. -/
theorem flatMap {ι : Type} {f g : ι → List Nat} {is : List ι}
    (h : ∀ i ∈ is, LowerEq limit (f i) (g i)) : LowerEq limit (is.flatMap f) (is.flatMap g) := by
  induction is with
  | nil => exact refl _
  | cons i is ih =>
    rw [List.flatMap_cons, List.flatMap_cons]
    exact (h i List.mem_cons_self).append (ih fun j hj => h j (List.mem_cons_of_mem i hj))

end LowerEq

/-- If one part is lower and no other part is higher, the whole is lower. -/
theorem Lower.flatMap {limit : Nat} {ι : Type} {f g : ι → List Nat} {is : List ι}
    (h : ∀ i ∈ is, LowerEq limit (f i) (g i)) {i : ι} (hi : i ∈ is)
    (hlower : Lower limit (f i) (g i)) : Lower limit (is.flatMap f) (is.flatMap g) := by
  induction is with
  | nil => simp at hi
  | cons j is ih =>
    have hrest : ∀ k ∈ is, LowerEq limit (f k) (g k) := fun k hk =>
      h k (List.mem_cons_of_mem j hk)
    rw [List.flatMap_cons, List.flatMap_cons]
    rcases List.mem_cons.mp hi with rfl | hi
    · exact hlower.append (LowerEq.flatMap hrest)
    · exact (ih hrest hi).append_left (h j List.mem_cons_self)

/-- The numbers at the levels from `d` on descend with the lists. -/
theorem Counts.less_ofList {n d k : Nat} {xs ys : List Nat} (hd : d ≤ k) (hk : k < d + n)
    (hlt : xs.count k < ys.count k) (heq : ∀ e < k, xs.count e = ys.count e) :
    Counts.less n (Counts.ofList n d xs) (Counts.ofList n d ys) = true := by
  induction n generalizing d with
  | zero => omega
  | succ n ih =>
    simp only [Counts.ofList, Counts.less, Bool.or_eq_true, Bool.and_eq_true]
    rcases Nat.eq_or_lt_of_le hd with rfl | hd
    · exact Or.inl (decide_eq_true hlt)
    · exact Or.inr ⟨decide_eq_true (heq d hd), ih hd (by omega)⟩

/-! ## What is unknown -/

namespace Stmt

variable {α : Type} [Scalar α]

/-- What is unknown in a loop depends on whether its bounds are known. -/
theorem unknowns_loop (ctx : Context α) (limit depth : Nat) (env : LoopValues)
    (comment : List String) (var : Datum) (start stop : Expr) (body : List Stmt) :
    unknowns ctx limit depth env (.loop comment var (.range start stop) body) =
      match ctx.evalBounds ⟨.loop comment var (.range start stop) body, env⟩ start stop with
      | .ok (lo, hi) => (integersBetween lo hi).flatMap fun i =>
        unknownsOfAll ctx limit (depth + 1) (env.bind var.shown i) body
      | .error _ => [depth] := by
  rw [unknowns]
  unfold Context.evalBounds
  cases ctx.evalIndex ⟨.loop comment var (.range start stop) body, env⟩ start with
  | error e => rfl
  | ok lo =>
    cases ctx.evalIndex ⟨.loop comment var (.range start stop) body, env⟩ stop with
    | error e => rfl
    | ok hi => rfl

mutual

/-- What is unknown inside `depth` loops has at least this level. -/
theorem depth_le_of_mem_unknowns {ctx : Context α} {limit depth : Nat} {env : LoopValues}
    {s : Stmt} (h : depth + loopDepth s ≤ limit) :
    ∀ x ∈ unknowns ctx limit depth env s, depth ≤ x := by
  intro x hx
  match s with
  | .loop comment var (.range start stop) body =>
    rw [loopDepth] at h
    rw [unknowns_loop] at hx
    split at hx
    · obtain ⟨i, -, hx⟩ := List.mem_flatMap.mp hx
      have hle : depth + 1 ≤ x := depth_le_of_mem_unknownsOfAll (by omega) x hx
      omega
    · exact Nat.le_of_eq (List.mem_singleton.mp hx).symm
  | .assign comment lhs rhs =>
    rw [unknowns] at hx
    have hmem : x ∈ [limit] := by
      split at hx
      · split at hx
        · simp at hx
        · exact hx
      · exact hx
    rw [List.mem_singleton.mp hmem]
    omega
  | .loop _ _ (.literal _) _ | .loop _ _ (.var _) _ | .loop _ _ .colon _ | .loop _ _ (.index _ _) _
  | .loop _ _ (.negate _) _ | .loop _ _ (.add _ _) _ | .loop _ _ (.sub _ _) _
  | .loop _ _ (.mul _ _) _ | .loop _ _ (.div _ _) _ | .loop _ _ (.pow _ _) _
  | .loop _ _ (.call _ _) _ | .loop _ _ (.ref _) _ | .loop _ _ (.refArray _ _) _
  | .loop _ _ (.raw _) _ | .loop _ _ (.rawList _) _ | .sample _ _ _ | .raw _ =>
    simp [unknowns] at hx

/-- What is unknown in statements inside `depth` loops has at least this level. -/
theorem depth_le_of_mem_unknownsOfAll {ctx : Context α} {limit depth : Nat} {env : LoopValues}
    {ss : List Stmt} (h : depth + loopDepthOfAll ss ≤ limit) :
    ∀ x ∈ unknownsOfAll ctx limit depth env ss, depth ≤ x := by
  intro x hx
  match ss with
  | [] => simp [unknownsOfAll] at hx
  | s :: rest =>
    rw [loopDepthOfAll] at h
    rw [unknownsOfAll] at hx
    rcases List.mem_append.mp hx with hx | hx
    · exact depth_le_of_mem_unknowns (by omega) x hx
    · exact depth_le_of_mem_unknownsOfAll (by omega) x hx

end

end Stmt

namespace Folding

open Stmt

variable {α : Type} [Scalar α] {functions : FunctionTable α} {shapes : Table String (List Nat)}
  {K K' : Constants α} {limit : Nat}

/-- With more constants, the bounds of a loop that had some stay the same. -/
theorem evalBounds_of_le (hK : K.Le K') (site : Site) (start stop : Expr) {b : Int × Int}
    (h : (context functions shapes K).evalBounds site start stop = .ok b) :
    (context functions shapes K').evalBounds site start stop = .ok b :=
  (Context.evalBounds_settles (context_below hK) (Site.Alike.refl site) start stop
    fun slot _ => Settles.of_eq (selection_eq site slot)).eq_ok h

/-- The target of a logical statement that has one keeps it as constants become known. -/
theorem resolveTarget_of_le (hK : K.Le K') (site : Site) (lhs : Expr) {id : Identity}
    (h : (context functions shapes K).resolveTarget site lhs = .ok id) :
    (context functions shapes K').resolveTarget site lhs = .ok id :=
  (Context.resolveTarget_settles (context_below hK) (Site.Alike.refl site) lhs
    fun slot _ => Settles.of_eq (selection_eq site slot)).eq_ok h

/-- What is unknown in the body of a loop is less than the loop as a whole. -/
theorem lower_turns {ctx : Context α} {depth : Nat} {is : List Int} {env : Int → LoopValues}
    {body : List Stmt} (h : depth + 1 + loopDepthOfAll body ≤ limit) :
    Lower limit (is.flatMap fun i => unknownsOfAll ctx limit (depth + 1) (env i) body) [depth] := by
  refine Lower.of_forall_lt (by omega) fun x hx => ?_
  obtain ⟨i, -, hx⟩ := List.mem_flatMap.mp hx
  have hle : depth + 1 ≤ x := depth_le_of_mem_unknownsOfAll h x hx
  exact hle

/-- A logical statement is unknown unless its identity is a constant. -/
theorem unknowns_assign (depth : Nat) (env : LoopValues) (comment : List String) (lhs rhs : Expr) :
    unknowns (context functions shapes K) limit depth env (.assign comment lhs rhs) =
      match (context functions shapes K).resolveTarget ⟨.assign comment lhs rhs, env⟩ lhs with
      | .ok id => if K.contains id then [] else [limit]
      | .error _ => [limit] := by
  rw [unknowns]
  rfl

mutual

/-- With more constants, no more is unknown in a statement. -/
theorem unknowns_lowerEq (hK : K.Le K') {depth : Nat} {env : LoopValues} {s : Stmt}
    (h : depth + loopDepth s ≤ limit) :
    LowerEq limit (unknowns (context functions shapes K') limit depth env s)
      (unknowns (context functions shapes K) limit depth env s) := by
  match s with
  | .loop comment var (.range start stop) body =>
    rw [loopDepth] at h
    rw [unknowns_loop, unknowns_loop]
    cases hbounds : (context functions shapes K).evalBounds
        ⟨.loop comment var (.range start stop) body, env⟩ start stop with
    | ok b =>
      rw [evalBounds_of_le hK _ start stop hbounds]
      exact LowerEq.flatMap fun i _ => unknownsOfAll_lowerEq hK (by omega)
    | error e =>
      dsimp only
      split
      · -- the loop opens, so its level gives way to those of its body
        exact Or.inr (lower_turns (by omega))
      · exact LowerEq.refl _
  | .assign comment lhs rhs =>
    rw [unknowns_assign, unknowns_assign]
    have hnone : LowerEq limit [] [limit] := Or.inr (Lower.of_forall_lt (Nat.le_refl limit) (by simp))
    cases hid : (context functions shapes K).resolveTarget ⟨.assign comment lhs rhs, env⟩ lhs with
    | ok id =>
      rw [resolveTarget_of_le hK _ lhs hid]
      dsimp only
      by_cases hknown : K.contains id
      · rw [if_pos hknown, if_pos (hK.contains hknown)]
        exact LowerEq.refl _
      · rw [if_neg hknown]
        split
        · exact hnone
        · exact LowerEq.refl _
    | error e =>
      dsimp only
      split
      · split
        · exact hnone
        · exact LowerEq.refl _
      · exact LowerEq.refl _
  | .loop _ _ (.literal _) _ | .loop _ _ (.var _) _ | .loop _ _ .colon _ | .loop _ _ (.index _ _) _
  | .loop _ _ (.negate _) _ | .loop _ _ (.add _ _) _ | .loop _ _ (.sub _ _) _
  | .loop _ _ (.mul _ _) _ | .loop _ _ (.div _ _) _ | .loop _ _ (.pow _ _) _
  | .loop _ _ (.call _ _) _ | .loop _ _ (.ref _) _ | .loop _ _ (.refArray _ _) _
  | .loop _ _ (.raw _) _ | .loop _ _ (.rawList _) _ | .sample _ _ _ | .raw _ =>
    refine Or.inl ?_
    simp [unknowns]

/-- With more constants, no more is unknown in statements. -/
theorem unknownsOfAll_lowerEq (hK : K.Le K') {depth : Nat} {env : LoopValues} {ss : List Stmt}
    (h : depth + loopDepthOfAll ss ≤ limit) :
    LowerEq limit (unknownsOfAll (context functions shapes K') limit depth env ss)
      (unknownsOfAll (context functions shapes K) limit depth env ss) := by
  match ss with
  | [] => exact LowerEq.refl _
  | s :: rest =>
    rw [loopDepthOfAll] at h
    rw [unknownsOfAll, unknownsOfAll]
    exact (unknowns_lowerEq hK (by omega)).append (unknownsOfAll_lowerEq hK (by omega))

end

/-- A logical statement instance to which some constants lead and whose identity is new among
them. -/
structure Adds (functions : FunctionTable α) (shapes : Table String (List Nat))
    (K K' : Constants α) (site : Site) : Prop where
  target : ∃ comment lhs rhs id, site.statement = .assign comment lhs rhs ∧
    (context functions shapes K').resolveTarget site lhs = .ok id ∧
    K.contains id = false ∧ K'.contains id = true

/-- A logical statement is no longer unknown once its identity is a constant. -/
theorem unknowns_assign_lower (hK : K.Le K') {depth : Nat} {env : LoopValues}
    {comment : List String} {lhs rhs : Expr} {id : Identity}
    (hid : (context functions shapes K').resolveTarget ⟨.assign comment lhs rhs, env⟩ lhs = .ok id)
    (hnew : K.contains id = false) (hknown : K'.contains id = true) :
    Lower limit (unknowns (context functions shapes K') limit depth env (.assign comment lhs rhs))
      (unknowns (context functions shapes K) limit depth env (.assign comment lhs rhs)) := by
  rw [unknowns_assign, unknowns_assign, hid]
  dsimp only
  rw [if_pos hknown]
  have hunknown := @Lower.of_forall_lt limit [] limit (Nat.le_refl limit) (by simp)
  split
  · next id' hid' =>
    have hsame := resolveTarget_of_le hK _ lhs hid'
    rw [hid, Except.ok.injEq] at hsame
    subst hsame
    rw [if_neg (by simpa using hnew)]
    exact hunknown
  · exact hunknown

mutual

/-- With a new constant, less is unknown in a statement that leads to the instance that gives it. -/
theorem unknowns_lower (hK : K.Le K') {depth : Nat} {env : LoopValues} {s : Stmt}
    (h : depth + loopDepth s ≤ limit) {site : Site}
    (hsite : site ∈ reached (context functions shapes K') env s)
    (hadds : Adds functions shapes K K' site) :
    Lower limit (unknowns (context functions shapes K') limit depth env s)
      (unknowns (context functions shapes K) limit depth env s) := by
  obtain ⟨comment', lhs', rhs', id, hstatement, hid, hnew, hknown⟩ := hadds.target
  match s with
  | .loop comment var (.range start stop) body =>
    rw [loopDepth] at h
    rw [reached] at hsite
    rw [unknowns_loop, unknowns_loop]
    cases hbounds' : (context functions shapes K').evalBounds
        ⟨.loop comment var (.range start stop) body, env⟩ start stop with
    | error e =>
      rw [hbounds'] at hsite
      rw [List.mem_singleton.mp hsite] at hstatement
      cases hstatement
    | ok b' =>
      rw [hbounds'] at hsite
      rcases List.mem_cons.mp hsite with rfl | hsite
      · cases hstatement
      · obtain ⟨i, hi, hsite⟩ := List.mem_flatMap.mp hsite
        cases hbounds : (context functions shapes K).evalBounds
            ⟨.loop comment var (.range start stop) body, env⟩ start stop with
        | ok b =>
          -- Bounds that were known already are the same, so only the turn of the site has fewer
          -- unknowns.
          have hsame := evalBounds_of_le hK _ start stop hbounds
          rw [hbounds', Except.ok.injEq] at hsame
          subst hsame
          exact Lower.flatMap (fun j _ => unknownsOfAll_lowerEq hK (by omega)) hi
            (unknownsOfAll_lower hK (by omega) hsite hadds)
        -- Bounds that only became known count less than a loop that does not open.
        | error e => exact lower_turns (by omega)
  | .assign comment lhs rhs =>
    rw [reached, List.mem_singleton] at hsite
    rw [hsite] at hid hstatement
    cases hstatement
    exact unknowns_assign_lower hK hid hnew hknown
  | .loop _ _ (.literal _) _ | .loop _ _ (.var _) _ | .loop _ _ .colon _ | .loop _ _ (.index _ _) _
  | .loop _ _ (.negate _) _ | .loop _ _ (.add _ _) _ | .loop _ _ (.sub _ _) _
  | .loop _ _ (.mul _ _) _ | .loop _ _ (.div _ _) _ | .loop _ _ (.pow _ _) _
  | .loop _ _ (.call _ _) _ | .loop _ _ (.ref _) _ | .loop _ _ (.refArray _ _) _
  | .loop _ _ (.raw _) _ | .loop _ _ (.rawList _) _ | .sample _ _ _ | .raw _ =>
    rw [reached, List.mem_singleton] at hsite
    · rw [hsite] at hstatement
      cases hstatement
    all_goals simp

/-- With a new constant, less is unknown in statements that lead to the instance that gives it. -/
theorem unknownsOfAll_lower (hK : K.Le K') {depth : Nat} {env : LoopValues} {ss : List Stmt}
    (h : depth + loopDepthOfAll ss ≤ limit) {site : Site}
    (hsite : site ∈ reachedOfAll (context functions shapes K') env ss)
    (hadds : Adds functions shapes K K' site) :
    Lower limit (unknownsOfAll (context functions shapes K') limit depth env ss)
      (unknownsOfAll (context functions shapes K) limit depth env ss) := by
  match ss with
  | [] => simp [reachedOfAll] at hsite
  | s :: rest =>
    rw [loopDepthOfAll] at h
    rw [reachedOfAll] at hsite
    rw [unknownsOfAll, unknownsOfAll]
    rcases List.mem_append.mp hsite with hsite | hsite
    · exact (unknowns_lower hK (by omega) hsite hadds).append (unknownsOfAll_lowerEq hK (by omega))
    · exact (unknownsOfAll_lower hK (by omega) hsite hadds).append_left
        (unknowns_lowerEq hK (by omega))

end

/-! ## The last round -/

/-- A step keeps the entries in place. -/
theorem entries_prefix_of_step {site : Site} {inner : List Site}
    (h : (walker functions shapes).step K site = .ok (K', inner)) : K.entries <+: K'.entries := by
  rcases step_cases h with rfl | ⟨id, n, hnew, -, rfl⟩
  · exact List.prefix_rfl
  · rw [Table.entries_insert_of_new n hnew]
    exact List.prefix_append _ _

/-- A walk keeps the entries in place. -/
theorem entries_prefix_of_trace {sites : List Site} {events : List (Constants α × Site)}
    (h : (walker functions shapes).Trace K sites events K') :
    K.entries <+: K'.entries ∧ ∀ e ∈ events, K.entries <+: e.1.entries :=
  h.invariant (fun L => K.entries <+: L.entries) List.prefix_rfl
    fun _ _ _ _ hL hstep => hL.trans (entries_prefix_of_step hstep)

omit [Scalar α] in
/-- A table that keeps the entries of another one in place and is no larger is the same. -/
theorem eq_of_entries_prefix (h : K.entries <+: K'.entries) (hsize : K'.size ≤ K.size) :
    K' = K := by
  have hentries := h.eq_of_length_le hsize
  cases K
  cases K'
  cases hentries
  rfl

variable {statements : List Stmt}

/-- A round keeps the entries in place. -/
theorem entries_prefix_of_round (h : round functions shapes statements K = .ok K') :
    K.entries <+: K'.entries := by
  obtain ⟨events, htrace⟩ := Stmt.walkAll_eq_ok_iff.mp h
  exact (entries_prefix_of_trace htrace).1

/-- A round that adds nothing changes nothing. -/
theorem eq_of_round (h : round functions shapes statements K = .ok K')
    (hsize : K'.size = K.size) : K' = K :=
  eq_of_entries_prefix (entries_prefix_of_round h) (Nat.le_of_eq hsize)

/-- A round that adds something leaves less unknown. -/
theorem round_less (h : round functions shapes statements K = .ok K') (hsize : K'.size ≠ K.size) :
    Counts.less _ (measure functions shapes statements K')
      (measure functions shapes statements K) = true := by
  have hadds : K.Le K' ∧ (K' = K ∨ ∃ site ∈ (context functions shapes K').reach (start statements),
      Adds functions shapes K K' site) := by
    refine round_induction (P := fun L => K.Le L ∧ (L = K ∨
      ∃ site ∈ (context functions shapes L).reach (start statements),
        Adds functions shapes K L site)) h ⟨Table.Le.refl K, Or.inl rfl⟩ ?_
    intro L site id n hL hnew hsite hsupports
    have hle := Table.le_insert n hnew
    obtain ⟨comment, lhs, rhs, -, -, hstatement, hid, -⟩ := hsupports
    exact ⟨hL.1.trans hle, Or.inr ⟨site, reach_of_le hle hsite, comment, lhs, rhs, id, hstatement,
      resolveTarget_of_le hle site lhs hid, hL.1.contains_eq_false hnew,
      Table.contains_insert_self L id n⟩⟩
  rcases hadds with ⟨hK, rfl | ⟨site, hsite, hadds⟩⟩
  · exact absurd rfl hsize
  · rw [start, ← Context.reachedOfAll_eq] at hsite
    have hdepth : 0 + loopDepthOfAll statements ≤ loopDepthOfAll statements :=
      Nat.le_of_eq (Nat.zero_add _)
    obtain ⟨d, hd, hlt, heq⟩ := unknownsOfAll_lower hK hdepth hsite hadds
    exact Counts.less_ofList (Nat.zero_le d) (by omega) hlt heq

/-- Rounds are repeated as long as they add something. -/
theorem saturate_of_round {next : Constants α} (h : round functions shapes statements K = .ok next) :
    saturate functions shapes statements K =
      if next.size = K.size then .ok next else saturate functions shapes statements next := by
  rw [saturate, h]
  dsimp only
  split
  · rfl
  · next hsize => rw [dif_pos (round_less h hsize)]

/-- Constants to which a round leads, and to which a further round adds nothing, are those that are
found. -/
theorem saturate_eq_ok {next : Constants α} (h : round functions shapes statements K = .ok next)
    (hnext : round functions shapes statements next = .ok next) :
    saturate functions shapes statements K = .ok next := by
  rw [saturate_of_round h, saturate_of_round hnext, if_pos rfl, ite_self]

/-- Rounds go on until one changes nothing. -/
theorem round_of_saturate (h : saturate functions shapes statements K = .ok K') :
    round functions shapes statements K' = .ok K' := by
  induction K using saturate.induct functions shapes statements with
  | case1 K e hround =>
    rw [saturate, hround] at h
    cases h
  | case2 K next hround hsize =>
    rw [saturate, hround] at h
    dsimp only at h
    rw [if_pos hsize, Except.ok.injEq] at h
    subst h
    have hsame := eq_of_round hround hsize
    rwa [← hsame] at hround
  | case3 K next hround hsize hless ih =>
    rw [saturate, hround] at h
    dsimp only at h
    rw [if_neg hsize, dif_pos hless] at h
    exact ih h
  | case4 K next hround hsize hless => exact absurd (round_less hround hsize) hless

/-- At every instance to which the constants lead, a further round changes nothing. -/
def Closed (functions : FunctionTable α) (shapes : Table String (List Nat))
    (statements : List Stmt) (K : Constants α) : Prop :=
  ∀ site ∈ (context functions shapes K).reach (start statements),
    ∃ inner, (walker functions shapes).step K site = .ok (K, inner)

/-- If constants are closed, a logical statement adds nothing, or its value is unavailable. -/
theorem Closed.addition_cases (hC : Closed functions shapes statements K) {site : Site}
    (hsite : site ∈ (context functions shapes K).reach (start statements))
    {comment : List String} {lhs rhs : Expr}
    (hstatement : site.statement = .assign comment lhs rhs) :
    addition (context functions shapes K) site lhs rhs = .ok none ∨
      ∃ e, e.isUnavailable = true ∧
        addition (context functions shapes K) site lhs rhs = .error e := by
  have hrange : site.range? = none := Site.range?_of_assign hstatement
  obtain ⟨inner, hstep⟩ := hC site hsite
  rcases Walker.step_eq_ok_iff.mp hstep with ⟨-, hvisit, -⟩ | ⟨_, _, ⟨_, _, hsome, -⟩, -⟩ |
      ⟨_, _, hsome, -⟩
  · change visit functions shapes K site = .ok K at hvisit
    unfold visit at hvisit
    rw [hstatement] at hvisit
    dsimp only at hvisit
    split at hvisit
    · next id n hadd =>
      -- an identity without a value would have got one
      obtain ⟨hnew, -⟩ := addition_eq_ok_some hstatement hadd
      have hget : K.get? id = none := (Table.contains_eq_false_iff K id).mp hnew
      have hsame : K.insert id n = K := Except.ok.inj hvisit
      rw [← hsame, Table.get?_insert_self] at hget
      cases hget
    · next hadd => exact Or.inl hadd
    · next e hadd =>
      split at hvisit
      · next he => exact Or.inr ⟨e, he, hadd⟩
      · cases hvisit
  all_goals
    rw [hrange] at hsome
    cases hsome

/-- The bounds of a loop to which closed constants lead have values, or one of them is not known. -/
theorem Closed.isStuck_of_evalBounds (hC : Closed functions shapes statements K) {site : Site}
    (hsite : site ∈ (context functions shapes K).reach (start statements))
    {lower upper : Expr} (hrange : site.range? = some (lower, upper)) {e : Failure}
    (h : (context functions shapes K).evalBounds site lower upper = .error e) : e.IsStuck := by
  obtain ⟨inner, hstep⟩ := hC site hsite
  rcases Walker.step_eq_ok_iff.mp hstep with ⟨hnone, -⟩ | ⟨lo, hi, ⟨_, _, hsome, hbounds⟩, -⟩ |
      ⟨_, _, hsome, -, ⟨e', he', hbounds⟩, -⟩
  · rw [hrange] at hnone
    cases hnone
  all_goals
    rw [hrange] at hsome
    cases hsome
    change (context functions shapes K).evalBounds site lower upper = _ at hbounds
    rw [h] at hbounds
  · cases hbounds
  · exact Except.error.inj hbounds ▸ he'

/-- The constants that are found are closed. -/
theorem closed_of_saturate (h : saturate functions shapes statements K = .ok K') :
    Closed functions shapes statements K' := by
  obtain ⟨events, htrace⟩ := Stmt.walkAll_eq_ok_iff.mp (round_of_saturate h)
  -- nothing has changed at any time of the round
  have hsame : ∀ e ∈ events, e.1 = K' := by
    intro e he
    obtain ⟨_, _, hlater, -⟩ := htrace.of_mem he
    exact eq_of_entries_prefix ((entries_prefix_of_trace htrace).2 e he)
      (entries_prefix_of_trace hlater).1.length_le
  have hreach : ((context functions shapes K').reach (start statements)).Sublist
      (events.map (·.2)) := by
    refine htrace.reach_sublist fun e he lo hi hopens => ?_
    rw [hsame e he]
    exact hopens
  intro site hsite
  obtain ⟨e, he, rfl⟩ := List.mem_map.mp (hreach.subset hsite)
  obtain ⟨_, _, hlater, -⟩ := htrace.of_mem he
  cases hlater with
  | @step _ mid _ _ inner _ _ hstep hrest =>
    rw [hsame e he] at hstep
    have hmid := eq_of_entries_prefix (entries_prefix_of_step hstep)
      (entries_prefix_of_trace hrest).1.length_le
    exact ⟨inner, hmid ▸ hstep⟩

end Folding

end BayesGraph
