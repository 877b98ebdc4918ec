import BayesGraph.Names
import BayesGraph.Validation
import BayesGraph.Proofs.Constants
import BayesGraph.Proofs.IdentifierTexts
import BayesGraph.Proofs.Simulation
import BayesGraph.Proofs.Substitution

/-!
# Loops can be written out

A loop whose bounds are known from the data can be replaced by its body, once for each integer
between the bounds, with the integer in place of the loop variable. Both passes of an unrolling walk
through the loop and through the written-out statements side by side: an instance inside the loop
corresponds to the one of which the outermost loop variable has been replaced (`Site.Unfolds`).
Constants are folded in rounds, and since each round gives the same constants on both sides, so does
the repetition of rounds.
-/

set_option autoImplicit false

namespace BayesGraph

open Outcome

/-! ## Instances that correspond -/

/-- The second instance is the first one with the value of the outermost loop variable written in
its place. -/
structure Site.Unfolds (i : String) (site site' : Site) : Prop where
  value : ∃ k, site.env = (i, k) :: site'.env ∧ site'.statement = site.statement.subst i k
  indexed : .text i ∉ site.statement.indexedNames
  /-- No loop inside has the same variable. -/
  loops : ∀ var ∈ site.statement.loopNames, ∃ j, var = .text j ∧ j ≠ i

/-- The same instance, or one with the value of the outermost loop variable written in its place. -/
def Site.Expands (i : String) (site site' : Site) : Prop := site = site' ∨ site.Unfolds i site'

/-- Binding another variable keeps the one in front. -/
theorem LoopValues.bind_cons {i j : String} (h : j ≠ i) (k l : Int) (env : LoopValues) :
    LoopValues.bind ((i, k) :: env) j l = (i, k) :: env.bind j l := by
  have hne : (i == j) = false := beq_eq_false_iff_ne.mpr (Ne.symm h)
  unfold LoopValues.bind
  rw [List.any_cons, hne, Bool.false_or, List.map_cons]
  split
  · simp [Ne.symm h]
  · rfl

/-- The bodies of loops correspond. -/
theorem Site.Unfolds.inner {i : String} {site site' : Site} (h : site.Unfolds i site')
    (lo hi : Int) :
    List.Forall₂ (Site.Expands i) (site.inner lo hi) (site'.inner lo hi) := by
  obtain ⟨s, env⟩ := site
  obtain ⟨s', env'⟩ := site'
  obtain ⟨⟨k, henv, hs'⟩, hindexed, hloops⟩ := h
  dsimp only at henv hs' hindexed hloops
  subst henv hs'
  cases s with
  | loop comment var sequence body =>
    rw [Stmt.loopNames] at hloops
    rw [Stmt.indexedNames, List.mem_append, not_or] at hindexed
    obtain ⟨j, rfl, hj⟩ := hloops _ List.mem_cons_self
    have hbody : ∀ s ∈ body, ∀ l, Site.Expands i ⟨s, LoopValues.bind ((i, k) :: env') j l⟩
        ⟨s.subst i k, env'.bind j l⟩ := by
      intro s hs l
      refine Or.inr ⟨⟨k, LoopValues.bind_cons hj k l env', rfl⟩, ?_, ?_⟩
      · exact fun hmem => hindexed.2 (Stmt.mem_indexedNamesOfAll.mpr ⟨s, hs, hmem⟩)
      · intro var hvar
        exact hloops var (List.mem_cons_of_mem _ (Stmt.mem_loopNamesOfAll.mpr ⟨s, hs, hvar⟩))
    unfold Site.inner
    rw [Stmt.subst, Stmt.substAll_eq_map]
    dsimp only
    refine List.rel_flatMap (List.forall₂_same.mpr fun l _ => rfl) ?_
    rintro l _ rfl
    dsimp only
    rw [List.map_map, List.forall₂_map_left_iff, List.forall₂_map_right_iff, List.forall₂_same]
    exact fun s hs => hbody s hs l
  | sample comment lhs law => exact List.Forall₂.nil
  | assign comment lhs rhs => exact List.Forall₂.nil
  | raw object => exact List.Forall₂.nil

/-- The instances in a body are expanded one by one. -/
theorem Site.Expands.inner {i : String} {site site' : Site} (h : site.Expands i site')
    (lo hi : Int) : List.Forall₂ (Site.Expands i) (site.inner lo hi) (site'.inner lo hi) := by
  rcases h with rfl | h
  · exact List.forall₂_same.mpr fun t _ => Or.inl rfl
  · exact h.inner lo hi

/-- The bounds of a loop are substituted like everything else. -/
theorem Site.range?_subst {site site' : Site} {i : String} {k : Int}
    (h : site'.statement = site.statement.subst i k) :
    site'.range? = site.range?.map fun p => (p.1.subst i k, p.2.subst i k) := by
  unfold Site.range?
  rw [h]
  cases site.statement with
  | loop comment var sequence body =>
    cases sequence with
    | var name =>
      rw [Stmt.subst, Expr.subst]
      by_cases hname : name = .text i
      · rw [if_pos hname]
        rfl
      · rw [if_neg hname]
        rfl
    | _ => rfl
  | _ => rfl

/-- All that the passes of an unrolling ask of an instance has the same answer at another one. -/
structure Site.Corresponds {α : Type} [Scalar α] (ctx ctx' : Context α) (site site' : Site) :
    Prop where
  range : site.range? = none ↔ site'.range? = none
  opens : ∀ lo hi, ctx.Opens site lo hi ↔ ctx'.Opens site' lo hi
  target : ∀ id, (∃ lhs, site.lhs? = some lhs ∧ ctx.resolveTarget site lhs = .ok id) ↔
    ∃ lhs, site'.lhs? = some lhs ∧ ctx'.resolveTarget site' lhs = .ok id
  source : site.source.isOk = site'.source.isOk
  meaning : ∀ meaning, Unrolled.resolveMeaning ctx site = .ok meaning ↔
    Unrolled.resolveMeaning ctx' site' = .ok meaning

section Corresponds

variable {α : Type} [Scalar α] {ctx ctx' : Context α} {site site' : Site} {i : String}

omit [Scalar α] in
/-- In contexts that agree, an empty slot settles as the same positions. -/
theorem Context.Agrees.selection (h : ctx.Agrees ctx') (site : Site) (slot : Slot) :
    Settles Failure.IsStuck (ctx.selection site slot) (ctx'.selection site slot) := by
  unfold Context.selection Context.wholeDimension
  rw [h.shapeOf]
  exact Settles.refl _

/-- In contexts that agree, the same loops are opened. -/
theorem Context.Agrees.opens (h : ctx.Agrees ctx') {lo hi : Int} (hopens : ctx.Opens site lo hi) :
    ctx'.Opens site lo hi := by
  obtain ⟨start, stop, hrange, hbounds⟩ := hopens
  exact ⟨start, stop, hrange, (Context.evalBounds_settles h.below (Site.Alike.refl site) start stop
    fun slot _ => h.selection site slot).eq_ok hbounds⟩

/-- Contexts that agree have the same answers for one instance. -/
theorem Site.Corresponds.of_agrees (h : ctx.Agrees ctx') (site : Site) :
    site.Corresponds ctx ctx' site := by
  have htarget : ∀ {c c' : Context α}, c.Agrees c' → ∀ lhs id,
      c.resolveTarget site lhs = .ok id → c'.resolveTarget site lhs = .ok id := by
    intro c c' hc lhs id hid
    exact (Context.resolveTarget_settles hc.below (Site.Alike.refl site) lhs
      fun slot _ => hc.selection site slot).eq_ok hid
  have hmeaning : ∀ {c c' : Context α}, c.Agrees c' → ∀ meaning,
      Unrolled.resolveMeaning c site = .ok meaning →
      Unrolled.resolveMeaning c' site = .ok meaning := by
    intro c c' hc meaning hm
    exact (Unrolled.resolveMeaning_settles hc.below site fun slot _ =>
      hc.selection site slot).eq_ok hm
  refine ⟨Iff.rfl, fun lo hi => ⟨h.opens, h.symm.opens⟩, fun id => ⟨?_, ?_⟩, rfl, fun meaning =>
    ⟨hmeaning h meaning, hmeaning h.symm meaning⟩⟩
  · rintro ⟨lhs, hlhs, hid⟩
    exact ⟨lhs, hlhs, htarget h lhs id hid⟩
  · rintro ⟨lhs, hlhs, hid⟩
    exact ⟨lhs, hlhs, htarget h.symm lhs id hid⟩

/-- The bounds of a loop have the same values, or errors of one kind. -/
theorem Site.Unfolds.bounds (hsite : site.Unfolds i site') (h : ctx.Agrees ctx')
    {start stop : Expr} (hrange : site.range? = some (start, stop)) :
    ∃ start' stop', site'.range? = some (start', stop') ∧
      Kin (ctx.evalBounds site start stop) (ctx'.evalBounds site' start' stop') := by
  obtain ⟨⟨k, henv, hstatement⟩, hindexed, -⟩ := hsite
  have hrange' := Site.range?_subst hstatement
  rw [hrange] at hrange'
  have hparts : .text i ∉ start.indexedNames ∧ .text i ∉ stop.indexedNames := by
    unfold Site.range? at hrange
    split at hrange
    · next comment var start' stop' body heq =>
      cases hrange
      rw [heq, Stmt.indexedNames, Expr.indexedNames, List.mem_append, List.mem_append, not_or,
        not_or] at hindexed
      exact hindexed.1
    · cases hrange
  exact ⟨_, _, hrange', Context.evalBounds_subst h henv hparts.1 hparts.2⟩

/-- Unfolding an instance keeps whether it is a loop. -/
theorem Site.Unfolds.range_eq_none (hsite : site.Unfolds i site') :
    site.range? = none ↔ site'.range? = none := by
  obtain ⟨⟨k, -, hstatement⟩, -, -⟩ := hsite
  rw [Site.range?_subst hstatement, Option.map_eq_none_iff]

/-- Unfolding an instance keeps whether it opens a loop. -/
theorem Site.Unfolds.opens (hsite : site.Unfolds i site') (h : ctx.Agrees ctx') (lo hi : Int) :
    ctx.Opens site lo hi ↔ ctx'.Opens site' lo hi := by
  constructor
  · rintro ⟨start, stop, hrange, hbounds⟩
    obtain ⟨start', stop', hrange', hkin⟩ := hsite.bounds h hrange
    exact ⟨start', stop', hrange', hkin.eq_ok_iff.mp hbounds⟩
  · rintro ⟨start', stop', hrange', hbounds⟩
    cases hrange : site.range? with
    | none =>
      rw [hsite.range_eq_none.mp hrange] at hrange'
      cases hrange'
    | some range =>
      obtain ⟨start'', stop'', hrange'', hkin⟩ := hsite.bounds h hrange
      rw [hrange'] at hrange''
      cases hrange''
      exact ⟨range.1, range.2, hrange, hkin.eq_ok_iff.mpr hbounds⟩

/-- A distribution resolves alike with an integer in place of a loop variable of that value. -/
theorem Context.resolveDist_subst {k : Int} (h : ctx.Agrees ctx')
    (henv : site.env = (i, k) :: site'.env) (d : Dist)
    (hindexed : .text i ∉ Expr.indexedNamesOfAll d.parts) :
    Kin (ctx.resolveDist site d) (ctx'.resolveDist site' (d.subst i k)) := by
  have hparts := Expr.not_mem_indexedNames_of_mem hindexed
  have hparams : Kin (ctx.resolveAll site d.params)
      (ctx'.resolveAll site' (Expr.substAll i k d.params)) := by
    refine Context.resolveAll_subst h henv d.params fun hmem => ?_
    obtain ⟨e, he, hname⟩ := Expr.mem_indexedNamesOfAll.mp hmem
    exact hparts e (List.mem_append_left _ he) hname
  unfold Dist.parts Dist.bounds at hparts
  unfold Context.resolveDist
  refine Kin.bind (Kin.optionMapM fun e he => ?_) fun lower _ => ?_
  · exact Context.resolve_subst h henv e (hparts e (by simp [he]))
  refine Kin.bind (Kin.optionMapM fun e he => ?_) fun upper _ => ?_
  · exact Context.resolve_subst h henv e (hparts e (by simp [he]))
  exact Kin.bind hparams fun params _ => Kin.refl _

/-- What defines an identity resolves alike. -/
theorem Unrolled.resolveMeaning_subst {k : Int} (h : ctx.Agrees ctx')
    (henv : site.env = (i, k) :: site'.env)
    (hstatement : site'.statement = site.statement.subst i k)
    (hindexed : .text i ∉ site.statement.indexedNames) :
    Kin (Unrolled.resolveMeaning ctx site) (Unrolled.resolveMeaning ctx' site') := by
  unfold Unrolled.resolveMeaning
  rw [hstatement]
  cases hs : site.statement with
  | sample comment lhs law =>
    rw [hs, Stmt.indexedNames, List.mem_append, not_or] at hindexed
    cases law with
    | dist d =>
      exact Kin.bind (Context.resolveDist_subst h henv d hindexed.2) fun _ _ => Kin.refl _
    | raw object => exact Kin.refl _
  | assign comment lhs rhs =>
    rw [hs, Stmt.indexedNames, List.mem_append, not_or] at hindexed
    exact Kin.bind (Context.resolve_subst h henv rhs hindexed.2) fun _ _ => Kin.refl _
  | loop comment var sequence body => exact Kin.refl _
  | raw object => exact Kin.refl _

/-- An instance is related to the one with the value of a loop variable written in its place. -/
theorem Site.Unfolds.corresponds (hsite : site.Unfolds i site') (h : ctx.Agrees ctx') :
    site.Corresponds ctx ctx' site' := by
  obtain ⟨⟨k, henv, hstatement⟩, hindexed, -⟩ := id hsite
  have hlhs : site'.lhs? = site.lhs?.map (Expr.subst i k) := by
    unfold Site.lhs?
    rw [hstatement]
    cases site.statement <;> rfl
  have htarget : ∀ lhs, site.lhs? = some lhs →
      Kin (ctx.resolveTarget site lhs) (ctx'.resolveTarget site' (lhs.subst i k)) := by
    intro lhs hsome
    refine Context.resolveTarget_subst h henv lhs fun hmem => ?_
    unfold Site.lhs? at hsome
    cases hs : site.statement with
    | sample comment lhs' law | assign comment lhs' rhs =>
      rw [hs] at hsome hindexed
      cases hsome
      exact hindexed (List.mem_append_left _ hmem)
    | loop comment var sequence body | raw object =>
      rw [hs] at hsome
      cases hsome
  refine ⟨hsite.range_eq_none, hsite.opens h, fun id => ⟨?_, ?_⟩, ?_, fun meaning => ?_⟩
  · rintro ⟨lhs, hsome, hid⟩
    exact ⟨lhs.subst i k, by rw [hlhs, hsome, Option.map_some],
      (htarget lhs hsome).eq_ok_iff.mp hid⟩
  · rintro ⟨lhs', hsome', hid⟩
    rw [hlhs, Option.map_eq_some_iff] at hsome'
    obtain ⟨lhs, hsome, rfl⟩ := hsome'
    exact ⟨lhs, hsome, (htarget lhs hsome).eq_ok_iff.mpr hid⟩
  · unfold Site.source
    rw [hstatement, Stmt.source_subst i k site.statement site.env site'.env]
  · exact (Unrolled.resolveMeaning_subst h henv hstatement hindexed).eq_ok_iff

/-- An expanded instance corresponds to the other one. -/
theorem Site.Expands.corresponds (hsite : site.Expands i site') (h : ctx.Agrees ctx') :
    site.Corresponds ctx ctx' site' := by
  rcases hsite with rfl | hsite
  · exact Site.Corresponds.of_agrees h site
  · exact hsite.corresponds h

end Corresponds

/-! ## The registration of left-hand sides -/

namespace Unrolled

variable {α : Type} [Scalar α] {context context' : ShapeTable → Context α} {i : String}

/-- The same shapes, and the same identities registered for instances that correspond. -/
structure Progress.Matches (data : Table String (List Nat)) (i : String) (p p' : Progress) :
    Prop where
  sound : p.Sound data
  shapes : p.shapes = p'.shapes
  targets : List.Forall₂ (fun t t' => t.1.Expands i t'.1 ∧ t.2 = t'.2) p.targets p'.targets

/-- A registration does not depend on the text of the statement. -/
theorem observe_statement {t t' : ShapeTable} {id : Identity} {text text' : Option String}
    (h : t.observe id text = .ok t') : t.observe id text' = .ok t' :=
  ShapeTable.observe_eq_ok_iff.mpr (ShapeTable.observe_eq_ok_iff.mp h)

/-- The visits of corresponding targets agree. -/
theorem agree_visitTarget {data : Table String (List Nat)} {p p' : Progress} {site site' : Site}
    (hp : Progress.Matches data i p p') (hsite : site.Expands i site')
    (h : (context p.shapes).Agrees (context' p'.shapes)) :
    Agree (Progress.Matches data i) (visitTarget context p site)
      (visitTarget context' p' site') := by
  have hcorresponds := hsite.corresponds h
  have hsource : (∃ text, site.source = .ok text) ↔ ∃ text, site'.source = .ok text := by
    rw [← isOk_iff, ← isOk_iff, hcorresponds.source]
  constructor
  · intro q hq
    obtain ⟨lhs, id, text, shapes, hlhs, hid, htext, hobserve, rfl⟩ := visitTarget_eq_ok_iff.mp hq
    obtain ⟨lhs', hlhs', hid'⟩ := (hcorresponds.target id).mp ⟨lhs, hlhs, hid⟩
    obtain ⟨text', htext'⟩ := hsource.mp ⟨text, htext⟩
    refine ⟨⟨shapes, (site', id) :: p'.targets⟩, visitTarget_eq_ok_iff.mpr ⟨lhs', id, text', shapes,
      hlhs', hid', htext', ?_, rfl⟩, ?_, rfl, .cons ⟨hsite, rfl⟩ hp.targets⟩
    · rw [← hp.shapes]
      exact observe_statement hobserve
    · exact hp.sound.observe hobserve
  · intro q hq
    obtain ⟨lhs, id, text, shapes, hlhs, hid, htext, hobserve, rfl⟩ := visitTarget_eq_ok_iff.mp hq
    obtain ⟨lhs', hlhs', hid'⟩ := (hcorresponds.target id).mpr ⟨lhs, hlhs, hid⟩
    obtain ⟨text', htext'⟩ := hsource.mpr ⟨text, htext⟩
    rw [← hp.shapes] at hobserve
    refine ⟨⟨shapes, (site, id) :: p.targets⟩, visitTarget_eq_ok_iff.mpr ⟨lhs', id, text', shapes,
      hlhs', hid', htext', observe_statement hobserve, rfl⟩, ?_, rfl,
      .cons ⟨hsite, rfl⟩ hp.targets⟩
    exact hp.sound.observe hobserve

/-- A registration passes over no loop. -/
theorem not_passes {p : Progress} {site : Site} : ¬ (registering context).Passes p site := by
  rintro ⟨_, _, -, hstrict, -⟩
  cases hstrict

/-- The registrations of two models go side by side through instances that correspond. -/
theorem bisimilar_registering (data : Table String (List Nat))
    (h : ∀ shapes, (context shapes).Agrees (context' shapes)) :
    Walker.Bisimilar (registering context) (registering context') (Progress.Matches data i)
      (Site.Expands i) := by
  refine ⟨fun p p' site site' hp hsite => ?_⟩
  have hagrees : (context p.shapes).Agrees (context' p'.shapes) := hp.shapes ▸ h p.shapes
  have hcorresponds := hsite.corresponds hagrees
  exact Walker.agree_step hp hcorresponds.range (fun _ => agree_visitTarget hp hsite hagrees)
    hcorresponds.opens (iff_of_false not_passes not_passes) hsite.inner

end Unrolled

/-! ## Rounds of folding -/

namespace Folding

variable {α : Type} [Scalar α] {functions : FunctionTable α} {shapes : Table String (List Nat)}
  {i : String}

/-- A logical statement adds the same value with an integer in place of a loop variable. -/
theorem addition_subst {ctx : Context α} {site site' : Site} {k : Int}
    (henv : site.env = (i, k) :: site'.env) {lhs rhs : Expr} (hlhs : .text i ∉ lhs.indexedNames)
    (hrhs : .text i ∉ rhs.indexedNames) :
    Kin (addition ctx site lhs rhs) (addition ctx site' (lhs.subst i k) (rhs.subst i k)) := by
  have hagrees := Context.Agrees.refl ctx
  unfold addition
  refine Kin.bind (Context.resolveTarget_subst hagrees henv lhs hlhs) fun id _ => ?_
  split
  · exact Kin.refl _
  · refine Kin.bind (Context.resolve_subst hagrees henv rhs hrhs) fun resolved _ => ?_
    exact Kin.refl _

/-- A failure that only says that a value is not known has no other kin. -/
theorem isUnavailable_of_kind {e e' : Failure} (h : e.kind = e'.kind) :
    e.isUnavailable = e'.isUnavailable := by
  cases e <;> cases e' <;> simp_all [Failure.kind, Failure.isUnavailable]

/-- A visit adds the same constants. -/
theorem visit_subst {K : Constants α} {site site' : Site} (hsite : site.Unfolds i site') :
    Kin (visit functions shapes K site) (visit functions shapes K site') := by
  obtain ⟨⟨k, henv, hstatement⟩, hindexed, -⟩ := hsite
  unfold visit
  rw [hstatement]
  cases hs : site.statement with
  | assign comment lhs rhs =>
    rw [hs, Stmt.indexedNames, List.mem_append, not_or] at hindexed
    have hkin : Kin (addition (context functions shapes K) site lhs rhs)
        (addition (context functions shapes K) site' (lhs.subst i k) (rhs.subst i k)) :=
      addition_subst henv hindexed.1 hindexed.2
    rw [Stmt.subst]
    dsimp only
    cases hx : addition (context functions shapes K) site lhs rhs with
    | ok found =>
      rw [hkin.eq_ok_iff.mp hx]
      exact Kin.refl _
    | error e =>
      cases hy : addition (context functions shapes K) site' (lhs.subst i k) (rhs.subst i k) with
      | ok found =>
        rw [hkin.eq_ok_iff.mpr hy] at hx
        cases hx
      | error e' =>
        rw [hx, hy] at hkin
        have hkind : e.kind = e'.kind := Except.error.inj hkin
        dsimp only
        rw [isUnavailable_of_kind hkind]
        split
        · exact Kin.refl _
        · show Except.error e.kind = Except.error e'.kind
          rw [hkind]
  | sample comment lhs law => exact Kin.refl _
  | loop comment var sequence body => exact Kin.refl _
  | raw object => exact Kin.refl _

/-- The same constants, and at least those of the data. -/
def Matches (data : Constants α) (K K' : Constants α) : Prop := K = K' ∧ data.Le K

/-- A walk passes over a loop exactly if it passes over the loop with the integer in place. -/
theorem passes_iff {K : Constants α} {site site' : Site} (hsite : site.Unfolds i site') :
    (walker functions shapes).Passes K site ↔ (walker functions shapes).Passes K site' := by
  have hagrees := Context.Agrees.refl (context functions shapes K)
  constructor
  · rintro ⟨start, stop, hrange, hstrict, e, ⟨id, rfl⟩, he⟩
    obtain ⟨start', stop', hrange', hkin⟩ := hsite.bounds hagrees hrange
    exact ⟨start', stop', hrange', hstrict, _, ⟨id, rfl⟩, hkin.eq_error_iff.mp he⟩
  · rintro ⟨start', stop', hrange', hstrict, e, ⟨id, rfl⟩, he⟩
    cases hrange : site.range? with
    | none =>
      rw [hsite.range_eq_none.mp hrange] at hrange'
      cases hrange'
    | some range =>
      obtain ⟨start'', stop'', hrange'', hkin⟩ := hsite.bounds hagrees hrange
      rw [hrange'] at hrange''
      cases hrange''
      exact ⟨range.1, range.2, hrange, hstrict, _, ⟨id, rfl⟩, hkin.eq_error_iff.mpr he⟩

/-- Rounds of folding go side by side through instances that correspond. -/
theorem bisimilar_walker (data : Constants α) :
    Walker.Bisimilar (walker functions shapes) (walker functions shapes) (Matches data)
      (Site.Expands i) := by
  refine ⟨fun K K' site site' hK hsite => ?_⟩
  obtain ⟨rfl, hdata⟩ := hK
  have hcorresponds := hsite.corresponds (Context.Agrees.refl (context functions shapes K))
  have hvisit : Kin (visit functions shapes K site) (visit functions shapes K site') := by
    rcases hsite with rfl | hsite
    · exact Kin.refl _
    · exact visit_subst hsite
  have hpasses : (walker functions shapes).Passes K site ↔
      (walker functions shapes).Passes K site' := by
    rcases hsite with rfl | hsite
    · exact Iff.rfl
    · exact passes_iff hsite
  have hle : ∀ s L, visit functions shapes K s = .ok L → data.Le L := by
    intro s L hL
    rcases visit_cases hL with rfl | ⟨id, n, hnew, -, rfl⟩
    · exact hdata
    · exact hdata.trans (Table.le_insert n hnew)
  refine Walker.agree_step ⟨rfl, hdata⟩ hcorresponds.range (fun _ => ⟨fun L hL => ?_, fun L hL => ?_⟩)
    hcorresponds.opens hpasses hsite.inner
  · exact ⟨L, hvisit.eq_ok_iff.mp hL, rfl, hle site L hL⟩
  · exact ⟨L, hvisit.eq_ok_iff.mpr hL, rfl, hle site' L hL⟩

/-- Rounds that agree from the data on agree in the end. -/
theorem saturate_agree {statements statements' : List Stmt} {data K : Constants α}
    (hround : ∀ L, data.Le L → Agree (Matches data) (round functions shapes statements L)
      (round functions shapes statements' L)) (hK : data.Le K) :
    Agree (Matches data) (saturate functions shapes statements K)
      (saturate functions shapes statements' K) := by
  have hafter : ∀ {L next : Constants α}, data.Le L →
      round functions shapes statements L = .ok next →
      round functions shapes statements' L = .ok next ∧ data.Le next := by
    intro L next hL hnext
    obtain ⟨next', hnext', rfl, hle⟩ := (hround L hL).1 next hnext
    exact ⟨hnext', hle⟩
  induction K using saturate.induct functions shapes statements with
  | case1 K e herror =>
    have hfails : ∀ L, saturate functions shapes statements' K ≠ .ok L := by
      intro L hL
      rw [saturate] at hL
      cases hround' : round functions shapes statements' K with
      | error e' =>
        rw [hround'] at hL
        cases hL
      | ok next =>
        obtain ⟨next', hnext, -⟩ := (hround K hK).2 next hround'
        rw [herror] at hnext
        cases hnext
    rw [saturate, herror]
    refine ⟨fun L hL => ?_, fun L hL => absurd hL (hfails L)⟩
    cases hL
  | case2 K next hnext hsize =>
    obtain ⟨hnext', hle⟩ := hafter hK hnext
    rw [saturate_of_round hnext, saturate_of_round hnext', if_pos hsize, if_pos hsize]
    exact Agree.pure ⟨rfl, hle⟩
  | case3 K next hnext hsize hless ih =>
    obtain ⟨hnext', hle⟩ := hafter hK hnext
    rw [saturate_of_round hnext, saturate_of_round hnext', if_neg hsize, if_neg hsize]
    exact ih hle
  | case4 K next hnext hsize hless => exact absurd (round_less hnext hsize) hless

end Folding

/-! ## The loop and the written-out statements -/

/-- The body of a loop, once for each integer between the bounds, with the integer in place of the
loop variable. -/
def Stmt.expansion (i : String) (lo hi : Int) (body : List Stmt) : List Stmt :=
  (integersBetween lo hi).flatMap fun k => Stmt.substAll i k body

namespace Walker

variable {α σ σ' : Type} [Scalar α] {w : Walker α σ} {w' : Walker α σ'} {S : σ → σ' → Prop}
  {i : String}

/-- Walks side by side agree. -/
theorem Bisimilar.agree_of_runs {R : Site → Site → Prop} (h : Bisimilar w w' S R) {state : σ}
    {state' : σ'} {sites sites' : List Site} {x : Except Failure σ} {y : Except Failure σ'}
    (hstate : S state state') (hsites : List.Forall₂ R sites sites')
    (hx : ∀ last, x = .ok last ↔ w.Runs state sites last)
    (hy : ∀ last, y = .ok last ↔ w'.Runs state' sites' last) : Agree S x y := by
  constructor
  · intro last hlast
    obtain ⟨last', hruns, hS⟩ := h.runs hstate hsites ((hx last).mp hlast)
    exact ⟨last', (hy last').mpr hruns, hS⟩
  · intro last' hlast'
    obtain ⟨last, hruns, hS⟩ := h.symm.runs hstate hsites.flip ((hy last').mp hlast')
    exact ⟨last, (hx last).mpr hruns, hS⟩

/-- Two lists of statements are walked one behind the other. -/
theorem walkAll_append (w : Walker α σ) (env : LoopValues) (ss ts : List Stmt) (state : σ) :
    Stmt.walkAll w env state (ss ++ ts) =
      Stmt.walkAll w env state ss >>= fun mid => Stmt.walkAll w env mid ts := by
  induction ss generalizing state with
  | nil => rfl
  | cons s ss ih =>
    rw [List.cons_append, Stmt.walkAll, Stmt.walkAll, bind_assoc]
    simp only [ih]

/-- Statements around a loop at the top, and the loop written out, are walked through alike. -/
theorem Bisimilar.agree_expansion (h : Bisimilar w w' S (Site.Expands i)) {comment : List String}
    {start stop : Expr} {body : List Stmt} {lo hi : Int}
    (hopens : ∀ p p', S p p' →
      (w.context p).Opens ⟨.loop comment (.text i) (.range start stop) body, []⟩ lo hi)
    (hindexed : .text i ∉ Stmt.indexedNamesOfAll body)
    (hloops : ∀ var ∈ Stmt.loopNamesOfAll body, ∃ j, var = .text j ∧ j ≠ i)
    (before after : List Stmt) {state : σ} {state' : σ'} (hstate : S state state') :
    Agree S
      (Stmt.walkAll w [] state (before ++ [.loop comment (.text i) (.range start stop) body] ++ after))
      (Stmt.walkAll w' [] state' (before ++ Stmt.expansion i lo hi body ++ after)) := by
  have hsame : ∀ (ss : List Stmt) p p', S p p' →
      Agree S (Stmt.walkAll w [] p ss) (Stmt.walkAll w' [] p' ss) := by
    intro ss p p' hp
    exact h.agree_of_runs hp (List.forall₂_same.mpr fun _ _ => Or.inl rfl)
      (fun _ => Stmt.walkAll_eq_ok_iff) fun _ => Stmt.walkAll_eq_ok_iff
  have hloop : ∀ p p', S p p' →
      Agree S (Stmt.walkAll w [] p [.loop comment (.text i) (.range start stop) body])
        (Stmt.walkAll w' [] p' (Stmt.expansion i lo hi body)) := by
    intro p p' hp
    -- The sites in front of the loop hold its variable, where those of the expansion hold its
    -- value.
    have hsites : List.Forall₂ (Site.Expands i)
        (Site.inner ⟨.loop comment (.text i) (.range start stop) body, []⟩ lo hi)
        ((Stmt.expansion i lo hi body).map fun s => ⟨s, []⟩) := by
      unfold Site.inner Stmt.expansion
      rw [List.map_flatMap]
      refine List.rel_flatMap (List.forall₂_same.mpr fun k _ => rfl) ?_
      rintro k _ rfl
      dsimp only
      rw [Stmt.substAll_eq_map, List.map_map, List.forall₂_map_left_iff,
        List.forall₂_map_right_iff, List.forall₂_same]
      intro s hs
      refine Or.inr ⟨⟨k, rfl, rfl⟩, ?_, ?_⟩
      · exact fun hmem => hindexed (Stmt.mem_indexedNamesOfAll.mpr ⟨s, hs, hmem⟩)
      · exact fun var hvar => hloops var (Stmt.mem_loopNamesOfAll.mpr ⟨s, hs, hvar⟩)
    refine h.agree_of_runs hp hsites (fun last => ?_) fun _ => Stmt.walkAll_eq_ok_iff
    have hstep := step_eq_ok_iff.mpr (Or.inr (Or.inl ⟨lo, hi, hopens p p' hp, rfl, rfl⟩))
    rw [Stmt.walkAll_eq_ok_iff, List.map_singleton, runs_cons_iff]
    constructor
    · rintro ⟨mid, inner, hstep', hruns⟩
      rw [hstep] at hstep'
      cases hstep'
      rwa [List.append_nil] at hruns
    · intro hruns
      exact ⟨p, _, hstep, by rwa [List.append_nil]⟩
  have hfront : Agree S
      (Stmt.walkAll w [] state (before ++ [.loop comment (.text i) (.range start stop) body]))
      (Stmt.walkAll w' [] state' (before ++ Stmt.expansion i lo hi body)) := by
    rw [walkAll_append, walkAll_append]
    exact Agree.bind (hsame before state state' hstate) fun p p' _ _ hp => hloop p p' hp
  rw [walkAll_append w [] (before ++ _), walkAll_append w' [] (before ++ _)]
  exact Agree.bind hfront fun p p' _ _ hp => hsame after p p' hp

end Walker

/-! ## Loop variables of a valid model -/

namespace Stmt

/-- A valid loop has a new variable, and its body is valid inside of it. -/
theorem check_loop {loops : List Datum} {comment : List String} {var : Datum} {sequence : Expr}
    {body : List Stmt} (h : check loops (.loop comment var sequence body) = .ok ()) :
    var ∉ loops ∧ checkAll (loops ++ [var]) body = .ok () := by
  by_cases hvar : var ∈ loops
  · cases sequence <;> simp [check, hvar, Cause.alone] at h
  · refine ⟨hvar, ?_⟩
    cases sequence with
    | range start stop =>
      simp only [check, List.contains_eq_mem, hvar, decide_false, Bool.false_eq_true, if_false,
        bind_eq_ok] at h
      obtain ⟨⟨⟩, -, hbody⟩ := h
      exact hbody
    | _ => simp [check, hvar, Cause.alone] at h

mutual

/-- In a valid statement no loop has the variable of a loop around it. -/
theorem not_mem_loops_of_check {loops : List Datum} (s : Stmt) (h : check loops s = .ok ()) :
    ∀ var ∈ s.loopNames, var ∉ loops := by
  match s with
  | .loop comment var sequence body =>
    obtain ⟨hnew, hbody⟩ := check_loop h
    rw [loopNames]
    refine List.forall_mem_cons.mpr ⟨hnew, fun var' hvar hmem => ?_⟩
    exact not_mem_loops_of_checkAll body hbody var' hvar (List.mem_append_left _ hmem)
  | .sample _ _ _ | .assign _ _ _ | .raw _ => simp [loopNames]

/-- The same for the statements of a list. -/
theorem not_mem_loops_of_checkAll {loops : List Datum} (ss : List Stmt)
    (h : checkAll loops ss = .ok ()) : ∀ var ∈ loopNamesOfAll ss, var ∉ loops := by
  match ss with
  | [] => simp [loopNamesOfAll]
  | s :: rest =>
    obtain ⟨⟨⟩, hs, hrest⟩ := bind_eq_ok.mp h
    rw [loopNamesOfAll]
    intro var hvar
    rcases List.mem_append.mp hvar with hvar | hvar
    · exact not_mem_loops_of_check s hs var hvar
    · exact not_mem_loops_of_checkAll rest hrest var hvar

end

/-- The statements of a valid list are valid. -/
theorem check_of_mem {loops : List Datum} {ss : List Stmt} (h : checkAll loops ss = .ok ())
    {s : Stmt} (hs : s ∈ ss) : check loops s = .ok () := by
  induction ss with
  | nil => simp at hs
  | cons t ss ih =>
    obtain ⟨⟨⟩, ht, hrest⟩ := bind_eq_ok.mp h
    rcases List.mem_cons.mp hs with rfl | hs
    · exact ht
    · exact ih hrest hs

end Stmt

/-- If the names of a model pass the check, its loop variables are texts. -/
theorem Names.exists_text_of_check {m : Model} {dataNames : List String}
    {reserved : String → Bool} (h : (Names.check m dataNames reserved).collect.1 = .ok ()) :
    ∀ var ∈ Stmt.loopNamesOfAll m.statements, ∃ j, var = .text j := by
  obtain ⟨used, hnames⟩ := Names.exists_unambiguous_of_check h
  intro var hvar
  have hloop : var ∈ Stmt.loopVariables m.statements := mem_distinct.mpr hvar
  obtain ⟨j, hj, -⟩ := Names.isIdentifierObject_iff.mp
    (hnames.identifier var (List.mem_append_right used hloop))
  exact ⟨j, hj⟩

/-- Inside a loop of a valid model the other loops have other variables. -/
theorem loopNames_of_valid {m : Model} (hvalid : m.check = .ok ()) {dataNames : List String}
    {reserved : String → Bool} (hnames : (Names.check m dataNames reserved).collect.1 = .ok ())
    {comment : List String} {i : String} {sequence : Expr} {body : List Stmt}
    (hmem : .loop comment (.text i) sequence body ∈ m.statements) :
    ∀ var ∈ Stmt.loopNamesOfAll body, ∃ j, var = .text j ∧ j ≠ i := by
  obtain ⟨-, hbody⟩ := Stmt.check_loop (Stmt.check_of_mem hvalid hmem)
  intro var hvar
  have hname : var ∈ Stmt.loopNamesOfAll m.statements :=
    Stmt.mem_loopNamesOfAll.mpr ⟨_, hmem, List.mem_cons_of_mem _ hvar⟩
  obtain ⟨j, rfl⟩ := Names.exists_text_of_check hnames var hname
  refine ⟨j, rfl, fun hj => ?_⟩
  refine Stmt.not_mem_loops_of_checkAll body hbody _ hvar ?_
  rw [hj]
  simp

/-! ## The main theorem -/

namespace Unrolled

variable {α : Type} [Scalar α]

/-- The same sequence of targets with what defines them, the same shapes and the same constants. -/
structure Same (u u' : Unrolled α) : Prop where
  sequence : u.definitions.map (fun d => (d.target, d.meaning)) =
    u'.definitions.map fun d => (d.target, d.meaning)
  shapes : u.shapes = u'.shapes
  constants : u.constants = u'.constants
  data : u.data = u'.data

/-- Instances that correspond make definitions with the same meaning. -/
theorem agree_define {context context' : ShapeTable → Context α} {shapes : ShapeTable}
    {site site' : Site} {id : Identity}
    (h : site.Corresponds (context shapes) (context' shapes) site') :
    Agree (fun d d' => (d.target, d.meaning) = (d'.target, d'.meaning))
      (define context shapes site id) (define context' shapes site' id) := by
  have hsource : (∃ text, site.source = .ok text) ↔ ∃ text, site'.source = .ok text := by
    rw [← isOk_iff, ← isOk_iff, h.source]
  have hdefine : ∀ {c c' : ShapeTable → Context α} {s s' : Site} {d : Definition},
      (∀ meaning, resolveMeaning (c shapes) s = .ok meaning →
        resolveMeaning (c' shapes) s' = .ok meaning) →
      ((∃ text, s.source = .ok text) → ∃ text, s'.source = .ok text) →
      define c shapes s id = .ok d →
      ∃ d', define c' shapes s' id = .ok d' ∧ (d.target, d.meaning) = (d'.target, d'.meaning) := by
    intro c c' s s' d hmeaning htext hd
    obtain ⟨rfl, hm, hrefs, hs, hbounds⟩ := define_eq_ok hd
    obtain ⟨text, htext'⟩ := htext ⟨_, hs⟩
    have hm' := hmeaning _ (Context.explain_eq_ok.mp hm)
    refine ⟨⟨d.target, d.meaning, d.refs, text⟩, ?_, rfl⟩
    simp only [define, bind_eq_ok, pure_eq_ok, lift_malformed_eq_ok]
    refine ⟨d.meaning, Context.explain_eq_ok.mpr hm', d.refs, hrefs, text, htext', (), ?_, rfl⟩
    rw [forM_eq_ok]
    intro ref href
    rw [lift_compile_eq_ok, ShapeTable.checkBounds_eq_ok_iff]
    exact ShapeTable.checkBounds_eq_ok_iff.mp (hbounds ref href)
  refine ⟨fun d hd => hdefine (fun meaning => (h.meaning meaning).mp) hsource.mp hd, fun d hd => ?_⟩
  obtain ⟨d', hd', hsame⟩ := hdefine (fun meaning => (h.meaning meaning).mpr) hsource.mpr hd
  exact ⟨d', hd', hsame.symm⟩

/-- A loop at the top of a valid model whose bounds are known from the data can be written out: the
unrolling fails for both models, or it gives the same definitions, shapes and constants. -/
theorem make_expansion {m : Model} {bindings : Table String Datum} {reserved : String → Bool}
    (hvalid : m.check = .ok ())
    (hnames : (Names.check m bindings.keys reserved).collect.1 = .ok ()) {before after : List Stmt}
    {comment : List String} {i : String} {start stop : Expr} {body : List Stmt}
    (hm : m.statements = before ++ [.loop comment (.text i) (.range start stop) body] ++ after)
    (hindexed : .text i ∉ Stmt.indexedNamesOfAll body) {functions : FunctionTable α}
    {data : Bindings} (hdata : Bindings.flatten bindings = .ok data) {lo hi : Int}
    (hbounds : (Folding.context functions data.shapes (Folding.ofData data)).Opens
      ⟨.loop comment (.text i) (.range start stop) body, []⟩ lo hi) :
    Agree Same (make m bindings functions)
      (make ⟨before ++ Stmt.expansion i lo hi body ++ after, m.name⟩ bindings functions) ∧
      (hi < lo → Stmt.expansion i lo hi body = []) := by
  have hmem : Stmt.loop comment (.text i) (.range start stop) body ∈ m.statements := by
    rw [hm]
    simp
  have hloops := loopNames_of_valid hvalid hnames hmem
  constructor
  · unfold make
    dsimp only
    rw [hm, hdata]
    -- the constants of both models, round by round
    have hconstants : Agree (Folding.Matches (Folding.ofData data))
        (Folding.constants functions
          (before ++ [.loop comment (.text i) (.range start stop) body] ++ after) data)
        (Folding.constants functions (before ++ Stmt.expansion i lo hi body ++ after) data) := by
      refine Folding.saturate_agree (fun L hL => ?_) (Table.Le.refl _)
      refine (Folding.bisimilar_walker (Folding.ofData data)).agree_expansion ?_ hindexed hloops
        before after ⟨rfl, hL⟩
      rintro K _ ⟨rfl, hK⟩
      exact Folding.opens_of_le hK hbounds
    rw [ok_bind, ok_bind]
    refine Agree.bind hconstants fun C C' hC _ hmatch => ?_
    obtain ⟨rfl, hdataC⟩ := hmatch
    -- both registrations, side by side
    have hagrees : ∀ shapes, (context functions C (Stmt.definedNames (before ++
        [.loop comment (.text i) (.range start stop) body] ++ after)) shapes).Agrees
        (context functions C (Stmt.definedNames (before ++ Stmt.expansion i lo hi body ++ after))
          shapes) :=
      fun shapes => ⟨rfl, rfl, rfl⟩
    have hwalk := (bisimilar_registering data.shapes hagrees).agree_expansion
      (fun p p' hp => opens_of_folding hp.sound (Folding.opens_of_le hdataC hbounds)) hindexed
      hloops before after (Progress.Matches.mk (sound_start data.shapes) rfl .nil)
    refine Agree.bind hwalk fun p p' _ _ hp => ?_
    have hdefine : ∀ (t t' : Site × Identity), t.1.Expands i t'.1 ∧ t.2 = t'.2 →
        Agree (fun d d' => (d.target, d.meaning) = (d'.target, d'.meaning))
          (define (context functions C (Stmt.definedNames (before ++
            [.loop comment (.text i) (.range start stop) body] ++ after))) p.shapes t.1 t.2)
          (define (context functions C (Stmt.definedNames (before ++
            Stmt.expansion i lo hi body ++ after))) p.shapes t'.1 t'.2) := by
      rintro ⟨site, id⟩ ⟨site', _⟩ ⟨hsite, rfl⟩
      exact agree_define (hsite.corresponds (hagrees p.shapes))
    rw [← hp.shapes]
    refine Agree.bind (Agree.mapM (List.rel_reverse hp.targets) hdefine) fun ds ds' _ _ hds =>
      Agree.pure ⟨?_, rfl, rfl, rfl⟩
    rw [← List.forall₂_eq_eq_eq, List.forall₂_map_left_iff, List.forall₂_map_right_iff]
    exact hds
  · intro hlt
    have hnone : (hi + 1 - lo).toNat = 0 := by omega
    unfold Stmt.expansion integersBetween
    rw [hnone]
    rfl

/-- A triangle of variables: the bounds of the inner loop depend on the outer variable. -/
def triangleLoop : List Stmt :=
  [.loop [] (.text "j") (.range (.literal (.int 1)) (.var (.text "i")))
    [.sample [] (.index (.text "x") [.var (.text "i"), .var (.text "j")])
      (.dist { name := .text "dnorm", params := [.var (.text "i"), .literal (.int 1)] })]]

/-- Two rows of the triangle. -/
def triangleModel : Model where
  statements :=
    [.loop [] (.text "i") (.range (.literal (.int 1)) (.literal (.int 2))) triangleLoop]

/-- The functions that constants are folded with. -/
def triangleFunctions : FunctionTable Dual := (Registry.builtin : Registry Dual).foldingFunctions

/-- The model has no constants. -/
theorem constants_triangleModel :
    Folding.constants triangleFunctions triangleModel.statements ⟨⟨[]⟩, ⟨[]⟩⟩ = .ok ⟨[]⟩ :=
  Folding.saturate_eq_ok rfl rfl

/-- The outer loop of the triangle can be written out, and the model can be unrolled. -/
theorem make_triangleModel :
    Agree Same (make triangleModel ⟨[]⟩ triangleFunctions)
      (make ⟨[] ++ Stmt.expansion "i" 1 2 triangleLoop ++ [], triangleModel.name⟩ ⟨[]⟩
        triangleFunctions) ∧
      ∃ u, make triangleModel ⟨[]⟩ triangleFunctions = .ok u := by
  have hvalid : triangleModel.check = .ok () := rfl
  have hnames : (Names.check triangleModel (⟨[]⟩ : Table String Datum).keys fun _ =>
      false).collect.1 = .ok () := rfl
  have hm : triangleModel.statements = [] ++ [.loop [] (.text "i")
      (.range (.literal (.int 1)) (.literal (.int 2))) triangleLoop] ++ [] := rfl
  have hdata : Bindings.flatten ⟨[]⟩ = .ok ⟨⟨[]⟩, ⟨[]⟩⟩ := rfl
  have hbounds : (Folding.context triangleFunctions ⟨[]⟩ (Folding.ofData ⟨⟨[]⟩, ⟨[]⟩⟩)).Opens
      ⟨.loop [] (.text "i") (.range (.literal (.int 1)) (.literal (.int 2))) triangleLoop, []⟩ 1 2 :=
    ⟨_, _, rfl, rfl⟩
  obtain ⟨u, hu⟩ : ∃ u, make triangleModel ⟨[]⟩ triangleFunctions = .ok u := by
    rw [make_of_constants hdata constants_triangleModel]
    decide +kernel
  obtain ⟨hagree, -⟩ := make_expansion hvalid hnames hm (by decide) hdata hbounds
  exact ⟨hagree, u, hu⟩

end Unrolled

end BayesGraph
