import Mathlib.Data.List.Perm.Basic
import BayesGraph.Proofs.EmptySlots
import BayesGraph.Proofs.IdentifierTexts

/-!
# Statements in another order

Two models are rearrangements of each other if their statements differ in order only, at top level
or inside the bodies of loops. Under every context they lead to the same instances, up to the order
of instances and to the bodies of the loops among them; and they use, bind and define the same
names.
-/

set_option autoImplicit false

namespace BayesGraph

open Outcome

namespace Stmt

/-- Lists of statements that differ in the order of statements only, at top level or inside the
bodies of loops. -/
inductive Rearranged : List Stmt → List Stmt → Prop
  | nil : Rearranged [] []
  | cons (s : Stmt) {ss ss' : List Stmt} (h : Rearranged ss ss') : Rearranged (s :: ss) (s :: ss')
  | loop (comment : List String) (var : Datum) (sequence : Expr) {body body' : List Stmt}
      (h : Rearranged body body') (ss : List Stmt) :
      Rearranged (.loop comment var sequence body :: ss) (.loop comment var sequence body' :: ss)
  | swap (s t : Stmt) (ss : List Stmt) : Rearranged (s :: t :: ss) (t :: s :: ss)
  | trans {ss ss' ss'' : List Stmt} (h : Rearranged ss ss') (h' : Rearranged ss' ss'') :
      Rearranged ss ss''

namespace Rearranged

variable {ss ss' : List Stmt}

/-- A rearrangement can be undone. -/
theorem symm (h : Rearranged ss ss') : Rearranged ss' ss := by
  induction h with
  | nil => exact nil
  | cons s _ ih => exact ih.cons s
  | loop comment var sequence _ ss ih => exact ih.loop comment var sequence ss
  | swap s t ss => exact swap t s ss
  | trans _ _ ih ih' => exact ih'.trans ih

/-- What every statement gives a list of, rearranged statements give the same members of, if loops
with rearranged bodies do. The lists may depend on where the statements stand. -/
theorem flatMap_perm {ι β : Type} {f : ι → Stmt → List β}
    (hloop : ∀ comment var sequence body body',
      (∀ i, (body.flatMap (f i)).Perm (body'.flatMap (f i))) →
      ∀ i, (f i (.loop comment var sequence body)).Perm (f i (.loop comment var sequence body')))
    (h : Rearranged ss ss') (i : ι) : (ss.flatMap (f i)).Perm (ss'.flatMap (f i)) := by
  induction h generalizing i with
  | nil => exact List.Perm.refl _
  | cons s _ ih =>
    rw [List.flatMap_cons, List.flatMap_cons]
    exact (ih i).append_left _
  | loop comment var sequence _ ss ih =>
    rw [List.flatMap_cons, List.flatMap_cons]
    exact (hloop comment var sequence _ _ ih i).append_right _
  | swap s t ss =>
    simp only [List.flatMap_cons, ← List.append_assoc]
    exact List.perm_append_comm.append_right _
  | trans _ _ ih ih' => exact (ih i).trans (ih' i)

end Rearranged

/-- A statement without the body of a loop. -/
def withoutBody : Stmt → Stmt
  | .loop comment var sequence _ => .loop comment var sequence []
  | s => s

end Stmt

namespace Site

/-- An instance without the body of a loop. -/
def withoutBody (site : Site) : Site := ⟨site.statement.withoutBody, site.env⟩

/-- Instances that are the same without bodies are the same, or they are loops with one head. -/
theorem cases_of_withoutBody {site site' : Site} (h : site.withoutBody = site'.withoutBody) :
    site = site' ∨ ∃ comment var sequence body body' env,
      site = ⟨.loop comment var sequence body, env⟩ ∧
      site' = ⟨.loop comment var sequence body', env⟩ := by
  obtain ⟨s, env⟩ := site
  obtain ⟨s', env'⟩ := site'
  unfold withoutBody at h
  rw [Site.mk.injEq] at h
  obtain ⟨hs, rfl⟩ := h
  cases s <;> cases s' <;>
    simp only [Stmt.withoutBody, Stmt.loop.injEq, Stmt.sample.injEq, Stmt.assign.injEq,
      Stmt.raw.injEq, reduceCtorEq] at hs
  case loop.loop =>
    obtain ⟨rfl, rfl, rfl, -⟩ := hs
    exact Or.inr ⟨_, _, _, _, _, _, rfl, rfl⟩
  case sample.sample =>
    obtain ⟨rfl, rfl, rfl⟩ := hs
    exact Or.inl rfl
  case assign.assign =>
    obtain ⟨rfl, rfl, rfl⟩ := hs
    exact Or.inl rfl
  case raw.raw =>
    subst hs
    exact Or.inl rfl

section SameHead

variable {site site' : Site} (h : site.withoutBody = site'.withoutBody)
include h

/-- Instances that differ in the body of a loop are alike. -/
theorem alike_of_withoutBody : site.Alike site' := by
  rcases cases_of_withoutBody h with rfl | ⟨comment, var, sequence, body, body', env, rfl, rfl⟩
  · exact Alike.refl site
  · exact ⟨rfl, rfl⟩

/-- Instances that differ in the body of a loop have the same range. -/
theorem range?_of_withoutBody : site.range? = site'.range? := by
  rcases cases_of_withoutBody h with rfl | ⟨comment, var, sequence, body, body', env, rfl, rfl⟩
  · rfl
  · unfold range?
    cases sequence <;> rfl

/-- Only loops have bodies. -/
theorem eq_of_withoutBody {lhs : Expr} (hlhs : site.lhs? = some lhs) : site = site' := by
  rcases cases_of_withoutBody h with rfl | ⟨comment, var, sequence, body, body', env, rfl, rfl⟩
  · rfl
  · cases hlhs

end SameHead

end Site

/-! ## The instances of rearranged statements -/

namespace Context

variable {α : Type} [Scalar α] {ctx : Context α} {ss ss' : List Stmt}

omit [Scalar α] in
/-- Instances that are alike select the same positions. -/
theorem selection_alike {site site' : Site} (h : site.Alike site') (slot : Slot) :
    Settles Failure.IsStuck (ctx.selection site slot) (ctx.selection site' slot) := by
  refine Settles.of_eq ?_
  unfold selection wholeDimension
  simp only [h.refuse]

/-- The bounds of a loop do not depend on its body. -/
theorem evalBounds_withoutBody {site site' : Site} (h : site.withoutBody = site'.withoutBody)
    {start stop : Expr} {b : Int × Int} (hb : ctx.evalBounds site start stop = .ok b) :
    ctx.evalBounds site' start stop = .ok b := by
  have halike := Site.alike_of_withoutBody h
  exact (evalBounds_settles ⟨rfl, Table.Le.refl _⟩ halike start stop
    fun slot _ => selection_alike halike slot).eq_ok hb

/-- A loop opens alike whatever its body is. -/
theorem opens_withoutBody {site site' : Site} (h : site.withoutBody = site'.withoutBody)
    {lo hi : Int} (hopens : ctx.Opens site lo hi) : ctx.Opens site' lo hi := by
  obtain ⟨start, stop, hrange, hbounds⟩ := hopens
  exact ⟨start, stop, Site.range?_of_withoutBody h ▸ hrange, evalBounds_withoutBody h hbounds⟩

/-- The instances that a context leads to, without bodies. -/
def heads (ctx : Context α) (sites : List Site) : List Site :=
  (ctx.reach sites).map Site.withoutBody

/-- The heads of instances are those of each of them. -/
theorem heads_eq_flatMap (sites : List Site) :
    ctx.heads sites = sites.flatMap fun site => ctx.heads [site] := by
  induction sites with
  | nil => rfl
  | cons site rest ih =>
    have hsplit : ctx.reach (site :: rest) = ctx.reach [site] ++ ctx.reach rest :=
      reach_append [site] rest
    rw [List.flatMap_cons, ← ih, heads, hsplit, List.map_append, heads, heads]

/-- A loop that opens leads to the instances of its body, once for each value of its variable. -/
theorem heads_of_opens {site : Site} {lo hi : Int} (h : ctx.Opens site lo hi) :
    ctx.heads [site] = site.withoutBody :: ctx.heads (site.inner lo hi) := by
  rw [heads, reach_cons_of_opens h, List.append_nil, List.map_cons, heads]

/-- An instance that opens no loop is its own head. -/
theorem heads_of_not_opens {site : Site} (h : ∀ lo hi, ¬ ctx.Opens site lo hi) :
    ctx.heads [site] = [site.withoutBody] := by
  rw [heads, reach_cons_of_not_opens h]
  rfl

/-- Loops lead to the same instances if their bodies do. -/
theorem heads_loop_perm {comment : List String} {var : Datum} {sequence : Expr}
    {body body' : List Stmt}
    (h : ∀ env : LoopValues, (body.flatMap fun s => ctx.heads [⟨s, env⟩]).Perm
      (body'.flatMap fun s => ctx.heads [⟨s, env⟩])) (env : LoopValues) :
    (ctx.heads [⟨.loop comment var sequence body, env⟩]).Perm
      (ctx.heads [⟨.loop comment var sequence body', env⟩]) := by
  have hsame : Site.withoutBody ⟨.loop comment var sequence body, env⟩ =
      Site.withoutBody ⟨.loop comment var sequence body', env⟩ := rfl
  by_cases hopens : ∃ lo hi, ctx.Opens ⟨.loop comment var sequence body, env⟩ lo hi
  · obtain ⟨lo, hi, hopens⟩ := hopens
    rw [heads_of_opens hopens, heads_of_opens (opens_withoutBody hsame hopens), hsame,
      heads_eq_flatMap, heads_eq_flatMap (Site.inner _ lo hi)]
    refine List.Perm.cons _ ?_
    simp only [Site.inner, List.flatMap_assoc, List.flatMap_map]
    exact List.Perm.flatMap_left _ fun i _ => h _
  · have hclosed : ∀ lo hi, ¬ ctx.Opens ⟨.loop comment var sequence body, env⟩ lo hi :=
      fun lo hi hopen => hopens ⟨lo, hi, hopen⟩
    have hclosed' : ∀ lo hi, ¬ ctx.Opens ⟨.loop comment var sequence body', env⟩ lo hi :=
      fun lo hi hopen => hclosed lo hi (opens_withoutBody hsame.symm hopen)
    rw [heads_of_not_opens hclosed, heads_of_not_opens hclosed', hsame]

/-- Rearranged statements lead to the same instances in some other order. -/
theorem heads_perm (h : Stmt.Rearranged ss ss') (env : LoopValues) :
    (ctx.heads (ss.map fun s => ⟨s, env⟩)).Perm (ctx.heads (ss'.map fun s => ⟨s, env⟩)) := by
  rw [heads_eq_flatMap, heads_eq_flatMap (ss'.map _), List.flatMap_map, List.flatMap_map]
  exact h.flatMap_perm (f := fun (env : LoopValues) s => ctx.heads [⟨s, env⟩])
    (fun _ _ _ _ _ => heads_loop_perm) env

/-- Each instance of some statements is, but for the body of a loop, one of the rearranged ones. -/
theorem exists_rearranged (h : Stmt.Rearranged ss ss') {env : LoopValues} {site : Site}
    (hsite : site ∈ ctx.reach (ss.map fun s => ⟨s, env⟩)) :
    ∃ site' ∈ ctx.reach (ss'.map fun s => ⟨s, env⟩), site'.withoutBody = site.withoutBody :=
  List.mem_map.mp ((heads_perm h env).subset (List.mem_map_of_mem hsite))

end Context

/-! ## Slots on the left -/

namespace Stmt

mutual

/-- The empty slots in the loop bounds and left-hand sides of a statement and of its body. -/
def leftSlots : Stmt → List Slot
  | .loop comment var sequence body =>
    Site.leftSlots ⟨.loop comment var sequence body, []⟩ ++ leftSlotsOfAll body
  | .sample comment lhs law => Site.leftSlots ⟨.sample comment lhs law, []⟩
  | .assign comment lhs rhs => Site.leftSlots ⟨.assign comment lhs rhs, []⟩
  | .raw _ => []

/-- The empty slots in the loop bounds and left-hand sides of the statements of a list. -/
def leftSlotsOfAll : List Stmt → List Slot
  | [] => []
  | s :: rest => leftSlots s ++ leftSlotsOfAll rest

end

/-- The slots in the left-hand sides of a list are those of its members. -/
theorem leftSlotsOfAll_eq (ss : List Stmt) : leftSlotsOfAll ss = ss.flatMap leftSlots := by
  induction ss with
  | nil => rfl
  | cons s ss ih => rw [leftSlotsOfAll, ih, List.flatMap_cons]

/-- The targets of a list of statements are those of its members. -/
theorem targetsOfAll_eq (ss : List Stmt) : targetsOfAll ss = ss.flatMap targets := by
  induction ss with
  | nil => rfl
  | cons s ss ih => rw [targetsOfAll, ih, List.flatMap_cons]

/-- The names of loop variables in a list are those of its members. -/
theorem loopNamesOfAll_eq (ss : List Stmt) : loopNamesOfAll ss = ss.flatMap loopNames := by
  induction ss with
  | nil => rfl
  | cons s ss ih => rw [loopNamesOfAll, ih, List.flatMap_cons]

/-- The slots of an instance are slots of its statement. -/
theorem leftSlots_subset (site : Site) : site.leftSlots ⊆ site.statement.leftSlots := by
  obtain ⟨s, env⟩ := site
  intro slot hslot
  cases s with
  | loop comment var sequence body =>
    rw [leftSlots]
    exact List.mem_append_left _ hslot
  | sample comment lhs law =>
    rw [leftSlots]
    exact hslot
  | assign comment lhs rhs =>
    rw [leftSlots]
    exact hslot
  | raw object => cases hslot

/-- The body of a loop has no other slots than the loop. -/
theorem leftSlots_of_inner {site t : Site} {lo hi : Int} (ht : t ∈ site.inner lo hi) :
    t.statement.leftSlots ⊆ site.statement.leftSlots := by
  obtain ⟨comment, var, sequence, body, s, i, hstatement, hs, rfl⟩ := Site.exists_of_mem_inner ht
  intro slot hslot
  rw [hstatement, leftSlots, leftSlotsOfAll_eq]
  exact List.mem_append_right _ (List.mem_flatMap.mpr ⟨s, hs, hslot⟩)

/-- The slots of the instances that a context leads to are slots of the statements. -/
theorem leftSlots_of_reach {α : Type} [Scalar α] {ctx : Context α} {sites : List Site}
    {site : Site} (hsite : site ∈ ctx.reach sites) {slot : Slot} (hslot : slot ∈ site.leftSlots) :
    ∃ s ∈ sites, slot ∈ s.statement.leftSlots := by
  have hsub : ∃ s ∈ sites, site.statement.leftSlots ⊆ s.statement.leftSlots := by
    refine Context.forall_reach (P := fun site =>
      ∃ s ∈ sites, site.statement.leftSlots ⊆ s.statement.leftSlots)
      (fun s hs => ⟨s, hs, List.Subset.refl _⟩) (fun site lo hi _ hsite t ht => ?_) site hsite
    obtain ⟨s, hs, hsub⟩ := hsite
    exact ⟨s, hs, List.Subset.trans (leftSlots_of_inner ht) hsub⟩
  obtain ⟨s, hs, hsub⟩ := hsub
  exact ⟨s, hs, hsub (leftSlots_subset site hslot)⟩

namespace Rearranged

variable {ss ss' : List Stmt}

/-- Rearranged statements have the same slots on the left. -/
theorem leftSlots_perm (h : Rearranged ss ss') :
    (leftSlotsOfAll ss).Perm (leftSlotsOfAll ss') := by
  rw [leftSlotsOfAll_eq, leftSlotsOfAll_eq]
  refine h.flatMap_perm (f := fun (_ : Unit) => leftSlots) ?_ ()
  intro comment var sequence body body' hbody _
  rw [leftSlots, leftSlots, leftSlotsOfAll_eq, leftSlotsOfAll_eq]
  have hsame : Site.leftSlots ⟨.loop comment var sequence body, []⟩ =
      Site.leftSlots ⟨.loop comment var sequence body', []⟩ := by
    unfold Site.leftSlots
    cases sequence <;> rfl
  rw [hsame]
  exact (hbody ()).append_left _

/-! ## Names -/

/-- Rearranged statements define the same names. -/
theorem targets_perm (h : Rearranged ss ss') : (targetsOfAll ss).Perm (targetsOfAll ss') := by
  rw [targetsOfAll_eq, targetsOfAll_eq]
  refine h.flatMap_perm (f := fun (_ : Unit) => targets) ?_ ()
  intro comment var sequence body body' hbody _
  rw [targets, targets, targetsOfAll_eq, targetsOfAll_eq]
  exact hbody ()

/-- Rearranged statements have the same loop variables. -/
theorem loopNames_perm (h : Rearranged ss ss') : (loopNamesOfAll ss).Perm (loopNamesOfAll ss') := by
  rw [loopNamesOfAll_eq, loopNamesOfAll_eq]
  refine h.flatMap_perm (f := fun (_ : Unit) => loopNames) ?_ ()
  intro comment var sequence body body' hbody _
  rw [loopNames, loopNames, loopNamesOfAll_eq, loopNamesOfAll_eq]
  exact (hbody ()).cons var

/-- Rearranged statements use the same variables. -/
theorem variableNames_perm (h : Rearranged ss ss') {names : List Datum}
    (hnames : variableNamesOfAll ss = .ok names) :
    ∃ names', variableNamesOfAll ss' = .ok names' ∧ names.Perm names' := by
  induction h generalizing names with
  | nil => exact ⟨names, hnames, List.Perm.refl _⟩
  | cons s _ ih =>
    simp only [variableNamesOfAll, bind_eq_ok, pure_eq_ok] at hnames ⊢
    obtain ⟨first, hfirst, rest, hrest, rfl⟩ := hnames
    obtain ⟨rest', hrest', hperm⟩ := ih hrest
    exact ⟨_, ⟨first, hfirst, rest', hrest', rfl⟩, hperm.append_left first⟩
  | loop comment var sequence _ ss ih =>
    simp only [variableNamesOfAll, variableNames, bind_eq_ok, pure_eq_ok] at hnames ⊢
    obtain ⟨_, ⟨range, hrange, inner, hinner, rfl⟩, rest, hrest, rfl⟩ := hnames
    obtain ⟨inner', hinner', hperm⟩ := ih hinner
    refine ⟨_, ⟨_, ⟨range, hrange, inner', hinner', rfl⟩, rest, hrest, rfl⟩, ?_⟩
    exact (hperm.append_left (var :: range)).append_right rest
  | swap s t ss =>
    simp only [variableNamesOfAll, bind_eq_ok, pure_eq_ok] at hnames ⊢
    obtain ⟨first, hfirst, _, ⟨second, hsecond, rest, hrest, rfl⟩, rfl⟩ := hnames
    refine ⟨_, ⟨second, hsecond, _, ⟨first, hfirst, rest, hrest, rfl⟩, rfl⟩, ?_⟩
    rw [← List.append_assoc, ← List.append_assoc]
    exact List.perm_append_comm.append_right _
  | trans _ _ ih ih' =>
    obtain ⟨mid, hmid, hperm⟩ := ih hnames
    obtain ⟨names', hnames', hperm'⟩ := ih' hmid
    exact ⟨names', hnames', hperm.trans hperm'⟩

end Rearranged

end Stmt

namespace Names

/-- The names of a model are accepted in every order of its statements. -/
theorem verdict_rearranged {m m' : Model} {dataNames : List String} {reserved : String → Bool}
    {used : List Datum} (h : Stmt.Rearranged m.statements m'.statements)
    (hverdict : verdict m dataNames reserved = .ok used) :
    ∃ used', verdict m' dataNames reserved = .ok used' := by
  have hunambiguous := verdict_eq_ok_iff.mp hverdict
  obtain ⟨names, hnames, hkeys, -⟩ := variableNames_eq_ok_iff.mp hunambiguous.used_eq
  obtain ⟨names', hnames', hperm⟩ := h.variableNames_perm hnames
  -- The checks are about sets of names, so it is enough that no name is new in the other order.
  have hloops : ∀ name ∈ Stmt.loopVariables m'.statements,
      name ∈ Stmt.loopVariables m.statements := by
    intro name hname
    exact mem_distinct.mpr (h.loopNames_perm.mem_iff.mpr (mem_distinct.mp hname))
  have hkeys' : ∀ name ∈ names', name.isKey = true := by
    intro name hname
    exact hkeys name (hperm.mem_iff.mpr hname)
  obtain ⟨used', hused'⟩ : ∃ used', m'.variableNames = .ok used' :=
    ⟨_, variableNames_eq_ok_iff.mpr ⟨names', hnames', hkeys', rfl⟩⟩
  have hsub : ∀ name ∈ used' ++ Stmt.loopVariables m'.statements,
      name ∈ used ++ Stmt.loopVariables m.statements := by
    intro name hname
    rcases List.mem_append.mp hname with hname | hname
    · have hwritten := mem_of_variableNames hused' hnames' hname
      exact mem_used_or_loops hunambiguous.used_eq hnames (hperm.mem_iff.mpr hwritten)
    · exact List.mem_append_right used (hloops name hname)
  refine ⟨_, verdict_eq_ok_iff.mpr ⟨hused', ?_, ?_, ?_, hunambiguous.data⟩⟩
  · intro name hname
    exact hunambiguous.identifier name (hsub name hname)
  · intro name hname
    exact hunambiguous.free name (hsub name hname)
  · intro name hname
    obtain ⟨htarget, hbound⟩ := hunambiguous.unshadowed name (hloops name hname)
    exact ⟨fun hmem => htarget (h.targets_perm.mem_iff.mpr hmem), hbound⟩

end Names

end BayesGraph
