import BayesGraph.Proofs.ResolvedForms

/-!
# Valid models can be written and searched

The printer and the searches for names and references have no answer for some syntax trees, those
that validation refuses. Here are the inductions along the syntax that say so: whatever `check`
accepts has a written form and a list of names, and what resolution makes of it has a list of
references.
-/

set_option autoImplicit false

namespace BayesGraph

open Outcome

namespace Expr

/-! ## Written forms -/

/-- A checked expression has a binding strength. -/
theorem succeeds_precedence {s : Stmt} {inIndex : Bool} {e : Expr}
    (h : e.check s inIndex = .ok ()) : Succeeds e.precedence := by
  cases e with
  | literal val =>
    have hsign : ∃ negative, val.isNegative? = some negative := by
      cases val with
      | int n => exact ⟨_, rfl⟩
      | real x => exact ⟨_, rfl⟩
      | text _ | truth _ | nothing | list _ | record _ => cases h
    obtain ⟨negative, hnegative⟩ := hsign
    simp only [precedence, hnegative]
    cases negative <;> exact ⟨_, rfl⟩
  | _ => exact ⟨_, rfl⟩

/-- A checked expression has a text in parentheses, too. -/
theorem succeeds_parenthesized {s : Stmt} {inIndex : Bool} {e : Expr}
    (h : e.check s inIndex = .ok ()) (text : String) (least : Nat) :
    Succeeds (e.parenthesized text least) := by
  unfold parenthesized
  refine (succeeds_precedence h).bind fun n => ?_
  split
  · exact .pure _
  · exact .pure _

/-- A checked expression can be an item of a list. -/
theorem succeeds_requireText {s : Stmt} {inIndex : Bool} {e : Expr}
    (h : e.check s inIndex = .ok ()) : Succeeds e.requireText := by
  cases e with
  | var name =>
    cases name with
    | text t => exact ⟨(), rfl⟩
    | int _ | real _ | truth _ | nothing | list _ | record _ => cases h
  | _ => exact ⟨(), rfl⟩

mutual

/-- A checked expression has a written form. -/
theorem succeeds_print {s : Stmt} {inIndex : Bool} (e : Expr) (h : e.check s inIndex = .ok ()) :
    Succeeds e.print := by
  match e with
  | .literal _ | .var _ | .colon | .ref _ | .refArray _ _ => exact .pure _
  | .range start stop =>
    rw [check] at h
    split at h
    · obtain ⟨⟨⟩, hstart, hstop⟩ := bind_eq_ok.mp h
      rw [print]
      refine (succeeds_print start hstart).bind fun l => ?_
      exact (succeeds_print stop hstop).bind fun r => .pure _
    · cases h
  | .index name indices =>
    rw [print]
    exact (succeeds_printAll indices h).bind fun texts => .pure _
  | .negate val =>
    rw [print]
    refine (succeeds_print val h).bind fun text => ?_
    exact (succeeds_parenthesized (e := val) h text 4).bind fun text => .pure _
  | .add a b | .sub a b | .mul a b | .div a b | .pow a b =>
    obtain ⟨⟨⟩, ha, hb⟩ := bind_eq_ok.mp h
    rw [print]
    refine (succeeds_print a ha).bind fun l => ?_
    refine (succeeds_parenthesized ha l _).bind fun l => ?_
    refine (succeeds_print b hb).bind fun r => ?_
    exact (succeeds_parenthesized hb r _).bind fun r => .pure _
  | .call func arguments =>
    rw [print]
    cases func with
    | text t =>
      rw [check] at h
      split at h
      · cases h
      · exact (succeeds_printAll arguments h).bind fun texts => .pure _
    | int _ | real _ | truth _ | nothing | list _ | record _ => cases h
  | .raw _ | .rawList _ => cases h

/-- Checked expressions have written forms. -/
theorem succeeds_printAll {s : Stmt} {inIndex : Bool} (es : List Expr)
    (h : checkAll s inIndex es = .ok ()) : Succeeds (printAll es) := by
  match es with
  | [] => exact .pure []
  | e :: rest =>
    obtain ⟨⟨⟩, he, hrest⟩ := bind_eq_ok.mp h
    rw [printAll]
    refine (succeeds_print e he).bind fun text => ?_
    refine (succeeds_printAll rest hrest).bind fun texts => ?_
    exact (succeeds_requireText he).bind fun _ => .pure _

end

/-! ## Names -/

mutual

/-- The names of the variables in a checked expression can be listed. -/
theorem succeeds_variableNames {s : Stmt} {inIndex : Bool} (e : Expr)
    (h : e.check s inIndex = .ok ()) : Succeeds e.variableNames := by
  match e with
  | .literal _ | .var _ | .colon | .ref _ | .refArray _ _ => exact .pure _
  | .range a b =>
    rw [check] at h
    split at h
    · obtain ⟨⟨⟩, ha, hb⟩ := bind_eq_ok.mp h
      rw [variableNames]
      refine (succeeds_variableNames a ha).bind fun left => ?_
      exact (succeeds_variableNames b hb).bind fun right => .pure _
    · cases h
  | .index name indices =>
    rw [variableNames]
    exact (succeeds_variableNamesOfAll indices h).bind fun names => .pure _
  | .negate val =>
    rw [variableNames]
    exact succeeds_variableNames val h
  | .add a b | .sub a b | .mul a b | .div a b | .pow a b =>
    obtain ⟨⟨⟩, ha, hb⟩ := bind_eq_ok.mp h
    rw [variableNames]
    refine (succeeds_variableNames a ha).bind fun left => ?_
    exact (succeeds_variableNames b hb).bind fun right => .pure _
  | .call func arguments =>
    rw [variableNames]
    cases func with
    | text t =>
      rw [check] at h
      split at h
      · cases h
      · exact succeeds_variableNamesOfAll arguments h
    | int _ | real _ | truth _ | nothing | list _ | record _ => cases h
  | .raw _ | .rawList _ => cases h

/-- The names of the variables in checked expressions can be listed. -/
theorem succeeds_variableNamesOfAll {s : Stmt} {inIndex : Bool} (es : List Expr)
    (h : checkAll s inIndex es = .ok ()) : Succeeds (variableNamesOfAll es) := by
  match es with
  | [] => exact .pure []
  | e :: rest =>
    obtain ⟨⟨⟩, he, hrest⟩ := bind_eq_ok.mp h
    rw [variableNamesOfAll]
    refine (succeeds_variableNames e he).bind fun names => ?_
    exact (succeeds_variableNamesOfAll rest hrest).bind fun more => .pure _

end

/-! ## References -/

/-- References are listed one expression after the other. -/
theorem succeeds_refsOfAll_of_forall {es : List Expr} (h : ∀ e ∈ es, Succeeds e.refs) :
    Succeeds (refsOfAll es) := by
  induction es with
  | nil => exact .pure []
  | cons e rest ih =>
    rw [refsOfAll]
    refine (h e List.mem_cons_self).bind fun ids => ?_
    exact (ih fun e' he' => h e' (List.mem_cons_of_mem e he')).bind fun more => .pure _

/-- An expression without names that have to be resolved, and without plain objects in place of
expressions. -/
inductive Ground : Expr → Prop
  | literal (val : Datum) : Ground (.literal val)
  | ref (id : Identity) : Ground (.ref id)
  | refArray (ids : List Identity) (shape : List Nat) : Ground (.refArray ids shape)
  | negate {e : Expr} : Ground e → Ground (.negate e)
  | add {a b : Expr} : Ground a → Ground b → Ground (.add a b)
  | sub {a b : Expr} : Ground a → Ground b → Ground (.sub a b)
  | mul {a b : Expr} : Ground a → Ground b → Ground (.mul a b)
  | div {a b : Expr} : Ground a → Ground b → Ground (.div a b)
  | pow {a b : Expr} : Ground a → Ground b → Ground (.pow a b)
  | call (func : Datum) {arguments : List Expr} :
      (∀ e ∈ arguments, Ground e) → Ground (.call func arguments)

/-- What resolution leaves is ground. -/
theorem Resolved.ground {e : Expr} (h : e.Resolved) : e.Ground := by
  induction h with
  | @literal val _ => exact .literal val
  | ref id => exact .ref id
  | @refArray ids shape _ => exact .refArray ids shape
  | negate _ ih => exact .negate ih
  | add _ _ iha ihb => exact .add iha ihb
  | sub _ _ iha ihb => exact .sub iha ihb
  | mul _ _ iha ihb => exact .mul iha ihb
  | div _ _ iha ihb => exact .div iha ihb
  | pow _ _ iha ihb => exact .pow iha ihb
  | @call func _ _ ih => exact .call func ih

/-- The references of a ground expression can be listed. -/
theorem Ground.succeeds_refs {e : Expr} (h : e.Ground) : Succeeds e.refs := by
  have hbinary : ∀ {a b : Expr}, Succeeds a.refs → Succeeds b.refs →
      Succeeds (do
        let left ← a.refs
        let right ← b.refs
        return left ++ right) :=
    fun ha hb => ha.bind fun left => hb.bind fun right => .pure _
  induction h with
  | literal _ => exact .pure _
  | ref _ => exact .pure _
  | refArray _ _ => exact .pure _
  | negate _ ih => exact ih
  | add _ _ iha ihb => exact hbinary iha ihb
  | sub _ _ iha ihb => exact hbinary iha ihb
  | mul _ _ iha ihb => exact hbinary iha ihb
  | div _ _ iha ihb => exact hbinary iha ihb
  | pow _ _ iha ihb => exact hbinary iha ihb
  | call _ _ ih =>
    rw [refs]
    exact succeeds_refsOfAll_of_forall ih

/-- Resolved expressions have references. -/
theorem succeeds_refsOfAll {es : List Expr} (h : ∀ e ∈ es, e.Resolved) :
    Succeeds (refsOfAll es) :=
  succeeds_refsOfAll_of_forall fun e he => (h e he).ground.succeeds_refs

/-! ## Left-hand sides -/

/-- The indices of a checked left-hand side are checked, and none of them is a slice. -/
theorem check_of_target {s : Stmt} {indices : List Expr}
    (h : checkTargetIndices s indices = .ok ()) : checkAll s false indices = .ok () := by
  induction indices with
  | nil => rfl
  | cons e rest ih =>
    rw [checkTargetIndices] at h
    split at h
    · cases h
    · obtain ⟨⟨⟩, he, hrest⟩ := bind_eq_ok.mp h
      exact bind_eq_ok.mpr ⟨(), he, ih hrest⟩

/-- Each of the checked expressions of a list is checked. -/
theorem check_of_mem {s : Stmt} {inIndex : Bool} {es : List Expr} {e : Expr}
    (h : checkAll s inIndex es = .ok ()) (he : e ∈ es) : e.check s inIndex = .ok () := by
  induction es with
  | nil => cases he
  | cons e' rest ih =>
    obtain ⟨⟨⟩, he', hrest⟩ := bind_eq_ok.mp h
    rcases List.mem_cons.mp he with rfl | he
    · exact he'
    · exact ih hrest he

/-- A checked left-hand side is a variable or an element of an array. -/
theorem target_cases {s : Stmt} {lhs : Expr} (h : lhs.checkTarget s = .ok ()) :
    (∃ name, lhs = .var name) ∨
      ∃ name indices, lhs = .index name indices ∧ checkAll s false indices = .ok () := by
  cases lhs with
  | var name => exact Or.inl ⟨name, rfl⟩
  | index name indices => exact Or.inr ⟨name, indices, rfl, check_of_target h⟩
  | _ => cases h

end Expr

namespace Stmt

/-- What the check of a statement says about its parts. -/
theorem check_cases {s : Stmt} {loops : List Datum} (h : s.check loops = .ok ()) :
    (∃ comment lhs d, s = .sample comment lhs (.dist d) ∧ lhs.checkTarget s = .ok () ∧
      Expr.checkAll s false d.parts = .ok ()) ∨
    (∃ comment lhs rhs, s = .assign comment lhs rhs ∧ lhs.checkTarget s = .ok () ∧
      rhs.check s false = .ok ()) ∨
    ∃ comment var start stop body, s = .loop comment var (.range start stop) body ∧
      start.check s false = .ok () ∧ stop.check s false = .ok () ∧
      checkAll (loops ++ [var]) body = .ok () := by
  cases s with
  | sample comment lhs law =>
    simp only [check, bind_eq_ok] at h
    obtain ⟨⟨⟩, htarget, h⟩ := h
    cases law with
    | dist d => exact Or.inl ⟨comment, lhs, d, rfl, htarget, h⟩
    | raw object => cases h
  | assign comment lhs rhs =>
    simp only [check, bind_eq_ok] at h
    obtain ⟨⟨⟩, htarget, h⟩ := h
    exact Or.inr (Or.inl ⟨comment, lhs, rhs, rfl, htarget, h⟩)
  | loop comment var sequence body =>
    unfold check at h
    split at h
    · cases h
    · split at h
      · next start stop =>
        obtain ⟨⟨⟩, hrange, hbody⟩ := bind_eq_ok.mp h
        rw [Expr.check, if_pos rfl] at hrange
        obtain ⟨⟨⟩, hstart, hstop⟩ := bind_eq_ok.mp hrange
        exact Or.inr (Or.inr ⟨comment, var, start, stop, body, rfl, hstart, hstop, hbody⟩)
      · cases h
  | raw object => cases h

/-- Left-hand sides have written forms and names. -/
theorem succeeds_target {s : Stmt} {lhs : Expr} (h : lhs.checkTarget s = .ok ()) :
    Succeeds lhs.print ∧ Succeeds lhs.variableNames := by
  rcases Expr.target_cases h with ⟨name, rfl⟩ | ⟨name, indices, rfl, hindices⟩
  · exact ⟨.pure _, .pure _⟩
  · rw [Expr.print, Expr.variableNames]
    exact ⟨(Expr.succeeds_printAll indices hindices).bind fun texts => .pure _,
      (Expr.succeeds_variableNamesOfAll indices hindices).bind fun names => .pure _⟩

/-- A checked distribution has a written form. -/
theorem succeeds_printDist {s : Stmt} {d : Dist} (h : Expr.checkAll s false d.parts = .ok ()) :
    Succeeds d.print := by
  unfold Dist.parts Dist.bounds at h
  rw [Unrolled.checkAll_append, Unrolled.checkAll_append] at h
  obtain ⟨hparams, hlower, hupper⟩ := h
  have hbound : ∀ {bound : Option Expr}, Expr.checkAll s false bound.toList = .ok () →
      Succeeds (Dist.printBound bound) := by
    intro bound hbound
    cases bound with
    | none => exact .pure _
    | some e =>
      obtain ⟨⟨⟩, he, -⟩ := bind_eq_ok.mp hbound
      exact Expr.succeeds_print e he
  unfold Dist.print
  refine (Expr.succeeds_printAll d.params hparams).bind fun texts => ?_
  dsimp only
  split
  · exact (hbound hlower).bind fun l => (hbound hupper).bind fun r => .pure _
  · exact .pure _

mutual

/-- A checked statement has a written form. -/
theorem succeeds_print {loops : List Datum} (depth : Nat) (s : Stmt)
    (h : s.check loops = .ok ()) : Succeeds (s.print depth) := by
  match s with
  | .sample comment lhs law =>
    obtain ⟨_, _, d, heq, htarget, hd⟩ | ⟨_, _, _, heq, -⟩ | ⟨_, _, _, _, _, heq, -⟩ :=
      check_cases h
    · cases heq
      rw [print]
      refine (succeeds_target htarget).1.bind fun left => ?_
      exact (succeeds_printDist hd).bind fun right => .pure _
    · cases heq
    · cases heq
  | .assign comment lhs rhs =>
    obtain ⟨_, _, _, heq, -⟩ | ⟨_, _, _, heq, htarget, hrhs⟩ | ⟨_, _, _, _, _, heq, -⟩ :=
      check_cases h
    · cases heq
    · cases heq
      rw [print]
      refine (succeeds_target htarget).1.bind fun left => ?_
      exact (Expr.succeeds_print _ hrhs).bind fun right => .pure _
    · cases heq
  | .loop comment var sequence body =>
    obtain ⟨_, _, _, heq, -⟩ | ⟨_, _, _, heq, -⟩ |
      ⟨_, _, start, stop, _, heq, hstart, hstop, hbody⟩ := check_cases h
    · cases heq
    · cases heq
    · cases heq
      rw [print]
      refine (succeeds_printAll depth body hbody).bind fun lines => ?_
      refine Succeeds.bind ?_ fun range => .pure _
      rw [Expr.print]
      refine (Expr.succeeds_print start hstart).bind fun l => ?_
      exact (Expr.succeeds_print stop hstop).bind fun r => .pure _
  | .raw _ => cases h

/-- The statements of a valid list have texts. -/
theorem succeeds_printAll {loops : List Datum} (depth : Nat) (ss : List Stmt)
    (h : checkAll loops ss = .ok ()) : Succeeds (printAll depth ss) := by
  match ss with
  | [] => exact .pure []
  | s :: rest =>
    obtain ⟨⟨⟩, hs, hrest⟩ := bind_eq_ok.mp h
    rw [printAll]
    refine (succeeds_print depth s hs).bind fun text => ?_
    exact (succeeds_printAll depth rest hrest).bind fun texts => .pure _

end

mutual

/-- The names of the variables in a checked statement can be listed. -/
theorem succeeds_variableNames {loops : List Datum} (s : Stmt) (h : s.check loops = .ok ()) :
    Succeeds s.variableNames := by
  match s with
  | .sample comment lhs law =>
    obtain ⟨_, _, d, heq, htarget, hd⟩ | ⟨_, _, _, heq, -⟩ | ⟨_, _, _, _, _, heq, -⟩ :=
      check_cases h
    · cases heq
      rw [variableNames]
      refine (succeeds_target htarget).2.bind fun left => ?_
      exact (Expr.succeeds_variableNamesOfAll d.parts hd).bind fun right => .pure _
    · cases heq
    · cases heq
  | .assign comment lhs rhs =>
    obtain ⟨_, _, _, heq, -⟩ | ⟨_, _, _, heq, htarget, hrhs⟩ | ⟨_, _, _, _, _, heq, -⟩ :=
      check_cases h
    · cases heq
    · cases heq
      rw [variableNames]
      refine (succeeds_target htarget).2.bind fun left => ?_
      exact (Expr.succeeds_variableNames _ hrhs).bind fun right => .pure _
    · cases heq
  | .loop comment var sequence body =>
    obtain ⟨_, _, _, heq, -⟩ | ⟨_, _, _, heq, -⟩ |
      ⟨_, _, start, stop, _, heq, hstart, hstop, hbody⟩ := check_cases h
    · cases heq
    · cases heq
    · cases heq
      rw [variableNames, Expr.variableNames]
      refine Succeeds.bind ?_ fun range => ?_
      · refine (Expr.succeeds_variableNames start hstart).bind fun l => ?_
        exact (Expr.succeeds_variableNames stop hstop).bind fun r => .pure _
      · exact (succeeds_variableNamesOfAll body hbody).bind fun inner => .pure _
  | .raw _ => cases h

/-- The names of the variables in the statements of a valid list can be listed. -/
theorem succeeds_variableNamesOfAll {loops : List Datum} (ss : List Stmt)
    (h : checkAll loops ss = .ok ()) : Succeeds (variableNamesOfAll ss) := by
  match ss with
  | [] => exact .pure []
  | s :: rest =>
    obtain ⟨⟨⟩, hs, hrest⟩ := bind_eq_ok.mp h
    rw [variableNamesOfAll]
    refine (succeeds_variableNames s hs).bind fun names => ?_
    exact (succeeds_variableNamesOfAll rest hrest).bind fun more => .pure _

end

end Stmt

/-- A model with valid statements can be written. -/
theorem Model.succeeds_print {m : Model} (hm : m.check = .ok ()) : Succeeds m.print :=
  (Stmt.succeeds_printAll 4 m.statements hm).bind fun _ => .pure _

/-- An instance of a valid statement has a text. -/
theorem Site.succeeds_source {site : Site} (h : site.statement.Valid) : Succeeds site.source := by
  obtain ⟨loops, hcheck⟩ := h
  obtain ⟨s, env⟩ := site
  have hend : ∀ head : String, Succeeds (if env.isEmpty then (pure head : Except Malformed String)
      else pure (head ++ " with "
        ++ ", ".intercalate (env.map fun e => e.1 ++ " = " ++ toString e.2))) := by
    intro head
    split
    · exact .pure _
    · exact .pure _
  unfold Site.source Stmt.source
  cases s with
  | loop comment var sequence body => exact hend _
  | sample _ _ _ | assign _ _ _ | raw _ =>
    obtain ⟨text, htext⟩ := Stmt.succeeds_print 4 _ hcheck
    dsimp only
    rw [htext]
    exact hend _

end BayesGraph
