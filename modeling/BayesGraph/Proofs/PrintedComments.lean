import BayesGraph.Proofs.AnnotatedTexts
import BayesGraph.Proofs.LiteralTexts
import BayesGraph.Proofs.WrittenForms

/-!
# Comments in printed models

A comment is written behind its statement, after ` #`, and the bodies of loops are then cut into
lines and indented, the comments inside of them included. Deleting everything from ` #` to the end
of each line gives the text of the model without comments if and only if no comment contains a line
break.

The names of a model and the texts of its numbers are parts of a line (`Text.Inline`), so each
simple statement is one line up to its comments. By induction on the statements, the text of a model
is the text without comments, with the comments added (`Stmt.annotated_print`).
-/

set_option autoImplicit false

namespace BayesGraph

open Outcome

namespace Text

/-! ## Parts of a line -/

/-- The text can be a part of a line: it contains neither `#` nor a line break. -/
def Inline (s : String) : Prop := '#' ∉ s.toList ∧ '\n' ∉ s.toList

/-- Whether a text fits into a line of code is decided by its characters. -/
instance (s : String) : Decidable (Inline s) :=
  inferInstanceAs (Decidable ('#' ∉ s.toList ∧ '\n' ∉ s.toList))

/-- Texts that fit into a line fit behind each other. -/
theorem Inline.append {s t : String} (hs : Inline s) (ht : Inline t) : Inline (s ++ t) := by
  obtain ⟨hs, hs'⟩ := hs
  obtain ⟨ht, ht'⟩ := ht
  simp [Inline, *]

/-- Parts of a line with commas between them. -/
theorem Inline.intercalate {texts : List String} (h : ∀ s ∈ texts, Inline s) :
    Inline (", ".intercalate texts) := by
  induction texts with
  | nil => decide
  | cons s texts ih =>
    obtain ⟨hs, htexts⟩ := List.forall_mem_cons.mp h
    cases texts with
    | nil => simpa using hs
    | cons t texts =>
      rw [String.intercalate_cons_cons]
      exact (hs.append (by decide)).append (ih htexts)

/-- A name with a list behind it, in brackets. -/
theorem Inline.bracketed {name opening closing : String} {texts : List String} (hname : Inline name)
    (hopening : Inline opening) (htexts : ∀ s ∈ texts, Inline s) (hclosing : Inline closing) :
    Inline (name ++ opening ++ ", ".intercalate texts ++ closing) :=
  ((hname.append hopening).append (.intercalate htexts)).append hclosing

/-- Numerals fit into a line. -/
theorem inline_of_isNumeralChar {s : String}
    (h : ∀ c ∈ s.toList, Numeral.isNumeralChar c = true) : Inline s := by
  constructor
  · intro hc
    exact absurd (h _ hc) (by decide)
  · intro hc
    exact absurd (h _ hc) (by decide)

end Text

open Text

/-! ## Written expressions -/

namespace Datum

/-- The texts of the doubles that are not finite. -/
theorem realText_of_not_isFinite {x : Double} (h : ¬ x.isFinite = true) :
    realText x ∈ ["nan", "INF", "-INF"] := by
  unfold realText Double.magnitudeAtLeast
  simp only [if_neg h]
  cases hinf : x.isInfinite with
  | true => cases hneg : x.isNegative <;> simp
  | false =>
    have hnan : x.isNaN = true := by
      simp only [Double.isFinite, bne_iff_ne, ne_eq, not_not] at h
      simp only [Double.isInfinite, h, beq_self_eq_true, Bool.true_and] at hinf
      simp [Double.isNaN, h, bne, hinf]
    simp [Double.shortest, hnan]

/-- The text of a number is a part of a line. -/
theorem inline_literalText {d : Datum} (h : d.isNumber = true) : Inline d.literalText := by
  have hsign (negative : Bool) :
      ∀ c ∈ Numeral.signOf negative, Numeral.isNumeralChar c = true := by
    cases negative <;> simp [Numeral.signOf, Numeral.isNumeralChar]
  cases d with
  | int n =>
    apply inline_of_isNumeralChar
    rw [toList_literalText_int]
    exact List.forall_mem_append.mpr
      ⟨hsign _, Numeral.isNumeralChar_of_areDigits (Numeral.areDigits_toDigits _)⟩
  | real x =>
    by_cases hfinite : x.isFinite = true
    · obtain ⟨cs, whole, part, tail, htext, hdecimal⟩ := isRealText_realText hfinite
      apply inline_of_isNumeralChar
      rw [literalText, htext]
      exact List.forall_mem_append.mpr ⟨hsign _, hdecimal.isNumeralChar⟩
    · have hspecial : ∀ text ∈ ["nan", "INF", "-INF"], Inline text := by decide
      exact hspecial _ (realText_of_not_isFinite hfinite)
  | text _ | truth _ | nothing | list _ | record _ => cases h

end Datum

namespace Expr

mutual

/-- The names that the text of an expression contains: of variables, arrays and functions. -/
def writtenNames : Expr → List Datum
  | .var name => [name]
  | .index name indices => name :: writtenNamesOfAll indices
  | .call func arguments => func :: writtenNamesOfAll arguments
  | .negate val => writtenNames val
  | .range a b | .add a b | .sub a b | .mul a b | .div a b | .pow a b =>
    writtenNames a ++ writtenNames b
  | .literal _ | .colon | .ref _ | .refArray _ _ | .raw _ | .rawList _ => []

/-- The names in the texts of some expressions. -/
def writtenNamesOfAll : List Expr → List Datum
  | [] => []
  | e :: rest => writtenNames e ++ writtenNamesOfAll rest

end

/-- The names written in two lists of expressions. -/
theorem writtenNamesOfAll_append (es fs : List Expr) :
    writtenNamesOfAll (es ++ fs) = writtenNamesOfAll es ++ writtenNamesOfAll fs := by
  induction es with
  | nil => rfl
  | cons e es ih => rw [List.cons_append, writtenNamesOfAll, writtenNamesOfAll, ih,
      List.append_assoc]

/-- With parentheses a text still fits into a line. -/
theorem inline_parenthesized {e : Expr} {text result : String} {least : Nat}
    (htext : Inline text) (h : e.parenthesized text least = .ok result) : Inline result := by
  obtain ⟨p, -, rfl⟩ := parenthesized_eq_ok h
  split
  · exact (Inline.append (by decide) htext).append (by decide)
  · exact htext

mutual

/-- The text of a valid expression is a part of a line if its names are. -/
theorem inline_print {s : Stmt} {inIndex : Bool} {text : String} (e : Expr)
    (hcheck : e.check s inIndex = .ok ()) (hnames : ∀ name ∈ e.writtenNames, Inline name.shown)
    (h : e.print = .ok text) : Inline text := by
  match e with
  | .literal val =>
    cases h
    apply Datum.inline_literalText
    by_contra hval
    simp [check, refuse, hval] at hcheck
  | .var name =>
    cases h
    exact hnames name (List.mem_singleton_self name)
  | .colon =>
    cases h
    decide
  | .range start stop =>
    rw [check] at hcheck
    split at hcheck
    · obtain ⟨⟨⟩, hstart, hstop⟩ := bind_eq_ok.mp hcheck
      obtain ⟨hl, hr⟩ := List.forall_mem_append.mp hnames
      simp only [print, bind_eq_ok, pure_eq_ok] at h
      obtain ⟨l, hlprint, r, hrprint, rfl⟩ := h
      have hl := inline_print start hstart hl hlprint
      exact (hl.append (by decide)).append (inline_print stop hstop hr hrprint)
    · cases hcheck
  | .index name indices =>
    obtain ⟨hname, hindices⟩ := List.forall_mem_cons.mp hnames
    simp only [print, bind_eq_ok, pure_eq_ok] at h
    obtain ⟨texts, htexts, rfl⟩ := h
    have htexts := inline_printAll indices hcheck hindices htexts
    exact hname.bracketed (by decide) htexts (by decide)
  | .negate val =>
    simp only [print, bind_eq_ok, pure_eq_ok] at h
    obtain ⟨t, ht, w, hw, rfl⟩ := h
    exact .append (by decide) (inline_parenthesized (inline_print val hcheck hnames ht) hw)
  | .add a b | .sub a b | .mul a b | .div a b | .pow a b =>
    obtain ⟨⟨⟩, ha, hb⟩ := bind_eq_ok.mp hcheck
    obtain ⟨hl, hr⟩ := List.forall_mem_append.mp hnames
    simp only [print, bind_eq_ok, pure_eq_ok] at h
    obtain ⟨l, hlprint, l', hl', r, hrprint, r', hr', rfl⟩ := h
    have hl := inline_parenthesized (inline_print a ha hl hlprint) hl'
    have hr := inline_parenthesized (inline_print b hb hr hrprint) hr'
    exact (hl.append (by decide)).append hr
  | .call func arguments =>
    obtain ⟨hname, harguments⟩ := List.forall_mem_cons.mp hnames
    simp only [print, bind_eq_ok, pure_eq_ok] at h
    obtain ⟨texts, htexts, rfl⟩ := h
    cases func with
    | text t =>
      rw [check] at hcheck
      split at hcheck
      · cases hcheck
      · have htexts := inline_printAll arguments hcheck harguments htexts
        exact hname.bracketed (by decide) htexts (by decide)
    | int _ | real _ | truth _ | nothing | list _ | record _ => cases hcheck
  | .ref _ | .refArray _ _ | .raw _ | .rawList _ => cases hcheck

/-- The texts of checked expressions fit into a line. -/
theorem inline_printAll {s : Stmt} {inIndex : Bool} {texts : List String} (es : List Expr)
    (hcheck : checkAll s inIndex es = .ok ())
    (hnames : ∀ name ∈ writtenNamesOfAll es, Inline name.shown) (h : printAll es = .ok texts) :
    ∀ text ∈ texts, Inline text := by
  match es with
  | [] =>
    cases h
    simp
  | e :: rest =>
    obtain ⟨⟨⟩, he, hrest⟩ := bind_eq_ok.mp hcheck
    obtain ⟨hname, hnames⟩ := List.forall_mem_append.mp hnames
    simp only [printAll, bind_eq_ok, pure_eq_ok] at h
    obtain ⟨t, ht, ts, hts, -, -, rfl⟩ := h
    exact List.forall_mem_cons.mpr
      ⟨inline_print e he hname ht, inline_printAll rest hrest hnames hts⟩

end

/-! ## Validity without comments -/

mutual

/-- Whether an expression is valid does not depend on the statement that it stands in. -/
theorem check_elsewhere {s s' : Stmt} {inIndex : Bool} (e : Expr)
    (h : e.check s inIndex = .ok ()) : e.check s' inIndex = .ok () := by
  match e with
  | .literal val =>
    by_cases hval : val.isNumber = true
    · simp [check, hval]
    · simp [check, refuse, hval] at h
  | .var name =>
    cases name with
    | text t =>
      by_cases ht : t.isEmpty = true
      · simp [check, refuse, ht] at h
      · simp [check, ht]
    | int _ | real _ | truth _ | nothing | list _ | record _ => cases h
  | .colon =>
    cases inIndex with
    | true => rfl
    | false => cases h
  | .range start stop =>
    cases inIndex with
    | true =>
      obtain ⟨⟨⟩, hstart, hstop⟩ := bind_eq_ok.mp h
      exact bind_eq_ok.mpr ⟨(), check_elsewhere start hstart, check_elsewhere stop hstop⟩
    | false => cases h
  | .index name indices => exact checkAll_elsewhere indices h
  | .negate val => exact check_elsewhere val h
  | .add a b | .sub a b | .mul a b | .div a b | .pow a b =>
    obtain ⟨⟨⟩, ha, hb⟩ := bind_eq_ok.mp h
    exact bind_eq_ok.mpr ⟨(), check_elsewhere a ha, check_elsewhere b hb⟩
  | .call func arguments =>
    cases func with
    | text t =>
      rw [check] at h ⊢
      split at h
      · cases h
      · next ht =>
        rw [if_neg ht]
        exact checkAll_elsewhere arguments h
    | int _ | real _ | truth _ | nothing | list _ | record _ => cases h
  | .ref _ | .refArray _ _ | .raw _ | .rawList _ => cases h

/-- The check of a list of expressions does not depend on the statement. -/
theorem checkAll_elsewhere {s s' : Stmt} {inIndex : Bool} (es : List Expr)
    (h : checkAll s inIndex es = .ok ()) : checkAll s' inIndex es = .ok () := by
  match es with
  | [] => rfl
  | e :: rest =>
    obtain ⟨⟨⟩, he, hrest⟩ := bind_eq_ok.mp h
    exact bind_eq_ok.mpr ⟨(), check_elsewhere e he, checkAll_elsewhere rest hrest⟩

end

/-- The check of indices on the left does not depend on the statement. -/
theorem checkTargetIndices_elsewhere {s s' : Stmt} {indices : List Expr}
    (h : checkTargetIndices s indices = .ok ()) : checkTargetIndices s' indices = .ok () := by
  induction indices with
  | nil => rfl
  | cons e rest ih =>
    rw [checkTargetIndices] at h ⊢
    split at h
    · cases h
    · next hslice =>
      obtain ⟨⟨⟩, he, hrest⟩ := bind_eq_ok.mp h
      rw [if_neg hslice]
      exact bind_eq_ok.mpr ⟨(), check_elsewhere e he, ih hrest⟩

/-- The check of a left-hand side does not depend on the statement. -/
theorem checkTarget_elsewhere {s s' : Stmt} {lhs : Expr} (h : lhs.checkTarget s = .ok ()) :
    lhs.checkTarget s' = .ok () := by
  cases lhs with
  | var name => rfl
  | index name indices => exact checkTargetIndices_elsewhere h
  | _ => cases h

end Expr

namespace Dist

/-- The names that the text of a distribution contains. -/
def writtenNames (d : Dist) : List Datum := d.name :: Expr.writtenNamesOfAll d.parts

/-- The text of a bound fits into a line. -/
theorem inline_printBound {s : Stmt} {bound : Option Expr} {text : String}
    (hcheck : Expr.checkAll s false bound.toList = .ok ())
    (hnames : ∀ name ∈ Expr.writtenNamesOfAll bound.toList, Inline name.shown)
    (h : printBound bound = .ok text) : Inline text := by
  cases bound with
  | none =>
    cases h
    decide
  | some e =>
    obtain ⟨⟨⟩, he, -⟩ := bind_eq_ok.mp hcheck
    exact e.inline_print he (List.forall_mem_append.mp hnames).1 h

/-- The text of a distribution fits into a line. -/
theorem inline_print {s : Stmt} {d : Dist} {text : String}
    (hcheck : Expr.checkAll s false d.parts = .ok ())
    (hnames : ∀ name ∈ d.writtenNames, Inline name.shown) (h : d.print = .ok text) :
    Inline text := by
  obtain ⟨hname, hparts⟩ := List.forall_mem_cons.mp hnames
  unfold parts bounds at hcheck hparts
  rw [Unrolled.checkAll_append, Unrolled.checkAll_append] at hcheck
  rw [Expr.writtenNamesOfAll_append, Expr.writtenNamesOfAll_append, List.forall_mem_append,
    List.forall_mem_append] at hparts
  obtain ⟨hparams, hlower, hupper⟩ := hcheck
  obtain ⟨hparams', hlower', hupper'⟩ := hparts
  unfold print at h
  obtain ⟨texts, htexts, h⟩ := bind_eq_ok.mp h
  have hhead : Inline (d.name.shown ++ "(" ++ ", ".intercalate texts ++ ")") :=
    hname.bracketed (by decide) (Expr.inline_printAll d.params hparams hparams' htexts) (by decide)
  dsimp only at h
  split at h
  · simp only [bind_eq_ok, pure_eq_ok] at h
    obtain ⟨l, hl, u, hu, rfl⟩ := h
    have hl := inline_printBound hlower hlower' hl
    have hu := inline_printBound hupper hupper' hu
    exact ((((hhead.append (by decide)).append hl).append (by decide)).append hu).append (by decide)
  · cases h
    exact hhead

end Dist

/-- The names that the right of a stochastic statement contains. -/
def Law.writtenNames : Law → List Datum
  | .dist d => d.writtenNames
  | .raw _ => []

/-! ## Written statements -/

namespace Stmt

mutual

/-- The names that the text of a statement contains. -/
def writtenNames : Stmt → List Datum
  | .sample _ lhs law => lhs.writtenNames ++ law.writtenNames
  | .assign _ lhs rhs => lhs.writtenNames ++ rhs.writtenNames
  | .loop _ var sequence body => var :: sequence.writtenNames ++ writtenNamesOfAll body
  | .raw _ => []

/-- The names in the texts of some statements. -/
def writtenNamesOfAll : List Stmt → List Datum
  | [] => []
  | s :: rest => writtenNames s ++ writtenNamesOfAll rest

end

mutual

/-- All comments of a statement in the order of the text, those inside of a loop first. -/
def comments : Stmt → List String
  | .sample comment _ _ | .assign comment _ _ => comment
  | .loop comment _ _ body => commentsOfAll body ++ comment
  | .raw _ => []

/-- All comments of some statements. -/
def commentsOfAll : List Stmt → List String
  | [] => []
  | s :: rest => comments s ++ commentsOfAll rest

end

mutual

/-- The same statement without comments. -/
def withoutComments : Stmt → Stmt
  | .sample _ lhs law => .sample [] lhs law
  | .assign _ lhs rhs => .assign [] lhs rhs
  | .loop _ var sequence body => .loop [] var sequence (withoutCommentsOfAll body)
  | .raw object => .raw object

/-- The same statements without comments. -/
def withoutCommentsOfAll : List Stmt → List Stmt
  | [] => []
  | s :: rest => withoutComments s :: withoutCommentsOfAll rest

end

/-- The text of a left-hand side is a part of a line. -/
theorem inline_target {s : Stmt} {lhs : Expr} {text : String}
    (hcheck : lhs.checkTarget s = .ok ()) (hnames : ∀ name ∈ lhs.writtenNames, Inline name.shown)
    (h : lhs.print = .ok text) : Inline text := by
  obtain ⟨name, rfl⟩ | ⟨name, indices, rfl, hindices⟩ := Expr.target_cases hcheck
  · cases h
    exact hnames name (List.mem_singleton_self name)
  · obtain ⟨hname, hnames⟩ := List.forall_mem_cons.mp hnames
    simp only [Expr.print, bind_eq_ok, pure_eq_ok] at h
    obtain ⟨texts, htexts, rfl⟩ := h
    have htexts := Expr.inline_printAll indices hindices hnames htexts
    exact hname.bracketed (by decide) htexts (by decide)

/-- The number of line breaks in some texts. -/
def breaks (texts : List String) : Nat := (texts.map fun s => s.toList.count '\n').sum

/-- The line breaks in two lists of comments. -/
theorem breaks_append (texts more : List String) :
    breaks (texts ++ more) = breaks texts + breaks more := by
  simp [breaks]

/-- Comments have no line breaks if none of them has. -/
theorem breaks_eq_zero_iff {texts : List String} :
    breaks texts = 0 ↔ ∀ s ∈ texts, '\n' ∉ s.toList := by
  simp [breaks, List.sum_eq_zero_iff, List.count_eq_zero]

/-- The text of a comment has the line breaks of the comment. -/
theorem count_commentText (comment : List String) :
    (commentText comment).toList.count '\n' = breaks comment := by
  unfold commentText breaks
  induction comment with
  | nil => rfl
  | cons c comment ih =>
    rw [List.map_cons, String.join_cons, String.toList_append, List.count_append, ih]
    simp

/-- The text of a statement in one line with its comments behind it. -/
theorem annotated_comment {s : String} (h : Inline s) (comment : List String) :
    Annotated (breaks comment) (s ++ commentText comment) (s ++ commentText []) := by
  have hplain : s ++ commentText [] = s := String.append_empty
  have hcount : (s ++ commentText comment).toList.count '\n' = breaks comment := by
    rw [String.toList_append, List.count_append, count_commentText,
      List.count_eq_zero_of_not_mem h.2, zero_add]
  rw [hplain]
  constructor
  · rw [(lines_spec _).1, hcount, lines_of_not_mem h.2, List.length_singleton]
    omega
  · intro hbreaks
    have hline : '\n' ∉ (s ++ commentText comment).toList := by
      rw [← List.count_eq_zero, hcount, hbreaks]
    rw [lines_of_not_mem h.2, lines_of_not_mem hline, List.forall₂_cons]
    refine ⟨?_, .nil⟩
    cases comment with
    | nil =>
      rw [hplain]
      exact .bare
    | cons c comment =>
      have hlist : (s ++ commentText (c :: comment)).toList =
          s.toList ++ ' ' :: '#' :: (' ' :: c.toList ++ (commentText comment).toList) := by
        simp [commentText]
      rw [hlist]
      exact .note _
  · rw [lines_of_not_mem h.2]
    simpa using h.1

/-- The text of a range fits into a line. -/
theorem inline_range {s : Stmt} {start stop : Expr} {text : String}
    (hstart : start.check s false = .ok ()) (hstop : stop.check s false = .ok ())
    (hnames : ∀ name ∈ (Expr.range start stop).writtenNames, Inline name.shown)
    (h : (Expr.range start stop).print = .ok text) : Inline text := by
  obtain ⟨hstartNames, hstopNames⟩ := List.forall_mem_append.mp hnames
  simp only [Expr.print, bind_eq_ok, pure_eq_ok] at h
  obtain ⟨l, hl, r, hr, rfl⟩ := h
  have hleft := (start.inline_print hstart hstartNames hl).append (by decide : Inline ":")
  exact hleft.append (stop.inline_print hstop hstopNames hr)

/-- A list with a statement has a text. -/
theorem printAll_ne_nil {depth : Nat} {s : Stmt} {rest : List Stmt} {texts : List String}
    (h : printAll depth (s :: rest) = .ok texts) : texts ≠ [] := by
  simp only [printAll, bind_eq_ok, pure_eq_ok] at h
  obtain ⟨t, -, ts, -, rfl⟩ := h
  exact List.cons_ne_nil t ts

mutual

/-- The text of a valid statement is the text without comments, with the comments added. -/
theorem annotated_print {loops : List Datum} {depth : Nat} {text : String} (s : Stmt)
    (hcheck : s.check loops = .ok ()) (hnames : ∀ name ∈ s.writtenNames, Inline name.shown)
    (h : s.print depth = .ok text) : ∃ plain, s.withoutComments.print depth = .ok plain ∧
      Annotated (breaks s.comments) text plain := by
  match s with
  | .sample comment lhs law =>
    obtain ⟨_, _, d, heq, htarget, hd⟩ | ⟨_, _, _, heq, -⟩ | ⟨_, _, _, _, _, heq, -⟩ :=
      check_cases hcheck
    · cases heq
      obtain ⟨hl, hr⟩ := List.forall_mem_append.mp hnames
      simp only [print, bind_eq_ok, pure_eq_ok] at h
      obtain ⟨left, hleft, right, hright, rfl⟩ := h
      have hline := ((inline_target htarget hl hleft).append (by decide : Inline " ~ ")).append
        (Dist.inline_print hd hr hright)
      refine ⟨left ++ " ~ " ++ right ++ commentText [], ?_, annotated_comment hline comment⟩
      simp only [withoutComments, print, bind_eq_ok, pure_eq_ok]
      exact ⟨left, hleft, right, hright, rfl⟩
    · cases heq
    · cases heq
  | .assign comment lhs rhs =>
    obtain ⟨_, _, _, heq, -⟩ | ⟨_, _, _, heq, htarget, hrhs⟩ | ⟨_, _, _, _, _, heq, -⟩ :=
      check_cases hcheck
    · cases heq
    · cases heq
      obtain ⟨hl, hr⟩ := List.forall_mem_append.mp hnames
      simp only [print, bind_eq_ok, pure_eq_ok] at h
      obtain ⟨left, hleft, right, hright, rfl⟩ := h
      have hline := ((inline_target htarget hl hleft).append (by decide : Inline " <- ")).append
        (rhs.inline_print hrhs hr hright)
      refine ⟨left ++ " <- " ++ right ++ commentText [], ?_, annotated_comment hline comment⟩
      simp only [withoutComments, print, bind_eq_ok, pure_eq_ok]
      exact ⟨left, hleft, right, hright, rfl⟩
    · cases heq
  | .loop comment var sequence body =>
    obtain ⟨_, _, _, heq, -⟩ | ⟨_, _, _, heq, -⟩ |
      ⟨_, _, start, stop, _, heq, hstart, hstop, hbody⟩ := check_cases hcheck
    · cases heq
    · cases heq
    · cases heq
      obtain ⟨hvar, hbodyNames⟩ := List.forall_mem_append.mp hnames
      obtain ⟨hvar, hsequence⟩ := List.forall_mem_cons.mp hvar
      simp only [print, bind_eq_ok, pure_eq_ok] at h
      obtain ⟨texts, htexts, range, hrange, rfl⟩ := h
      obtain ⟨plains, hplains, hlines⟩ := annotated_printAll body hbody hbodyNames htexts
      have hhead : Inline ("for ( " ++ var.shown ++ " in " ++ range ++ " ) \x7b") :=
        ((((by decide : Inline "for ( ").append hvar).append (by decide)).append
          (inline_range hstart hstop hsequence hrange)).append (by decide)
      -- The printer writes the break together with the brace, and lines are told apart by the
      -- break alone.
      have hopening : "for ( " ++ var.shown ++ " in " ++ range ++ " ) \x7b\n" =
          "for ( " ++ var.shown ++ " in " ++ range ++ " ) \x7b" ++ "\n" := by
        have hbreak : " ) \x7b\n" = " ) \x7b" ++ "\n" := by decide
        rw [hbreak, ← String.append_assoc]
      have htail := annotated_comment (by decide : Inline "\x7d") comment
      have hblock := hlines.block depth hhead hopening htail
      rw [comments, breaks_append]
      refine ⟨_, ?_, hblock⟩
      simp only [withoutComments, print, bind_eq_ok, pure_eq_ok]
      exact ⟨plains, hplains, range, hrange, rfl⟩
  | .raw _ => cases hcheck

/-- The texts of valid statements below each other. -/
theorem annotated_printAll {loops : List Datum} {depth : Nat} {texts : List String}
    (ss : List Stmt) (hcheck : checkAll loops ss = .ok ())
    (hnames : ∀ name ∈ writtenNamesOfAll ss, Inline name.shown)
    (h : printAll depth ss = .ok texts) :
    ∃ plains, printAll depth (withoutCommentsOfAll ss) = .ok plains ∧
      Annotated (breaks (commentsOfAll ss)) ("\n".intercalate texts)
        ("\n".intercalate plains) := by
  match ss with
  | [] =>
    cases h
    exact ⟨[], rfl, .refl (by decide)⟩
  | s :: rest =>
    obtain ⟨⟨⟩, hs, hrest⟩ := bind_eq_ok.mp hcheck
    obtain ⟨hname, hnames⟩ := List.forall_mem_append.mp hnames
    rw [printAll] at h
    simp only [bind_eq_ok, pure_eq_ok] at h
    obtain ⟨t, ht, ts, hts, rfl⟩ := h
    obtain ⟨p, hp, hfirst⟩ := annotated_print s hs hname ht
    obtain ⟨ps, hps, hothers⟩ := annotated_printAll rest hrest hnames hts
    refine ⟨p :: ps, ?_, ?_⟩
    · rw [withoutCommentsOfAll, printAll, hp, hps]
      rfl
    · rw [commentsOfAll, breaks_append]
      cases rest with
      | nil =>
        cases hts
        cases hps
        simpa [commentsOfAll, breaks] using hfirst
      | cons next rest =>
        rw [String.intercalate_cons_of_ne_nil (printAll_ne_nil hts),
          String.intercalate_cons_of_ne_nil (printAll_ne_nil hps)]
        exact hfirst.below hothers

end

mutual

/-- A valid statement is valid without its comments. -/
theorem check_withoutComments {loops : List Datum} (s : Stmt) (h : s.check loops = .ok ()) :
    s.withoutComments.check loops = .ok () := by
  match s with
  | .sample comment lhs law =>
    simp only [check, bind_eq_ok] at h
    obtain ⟨⟨⟩, htarget, h⟩ := h
    cases law with
    | dist d =>
      exact bind_eq_ok.mpr
        ⟨(), Expr.checkTarget_elsewhere htarget, Expr.checkAll_elsewhere d.parts h⟩
    | raw object => cases h
  | .assign comment lhs rhs =>
    obtain ⟨⟨⟩, htarget, hrhs⟩ := bind_eq_ok.mp h
    exact bind_eq_ok.mpr ⟨(), Expr.checkTarget_elsewhere htarget, rhs.check_elsewhere hrhs⟩
  | .loop comment var sequence body =>
    unfold check at h
    unfold withoutComments check
    split at h
    · cases h
    · next hnew =>
      rw [if_neg hnew]
      split at h
      · obtain ⟨⟨⟩, hrange, hbody⟩ := bind_eq_ok.mp h
        exact bind_eq_ok.mpr
          ⟨(), Expr.check_elsewhere _ hrange, check_withoutCommentsOfAll body hbody⟩
      · cases h
  | .raw _ => cases h

/-- The statements of a valid list are valid without their comments. -/
theorem check_withoutCommentsOfAll {loops : List Datum} (ss : List Stmt)
    (h : checkAll loops ss = .ok ()) : checkAll loops (withoutCommentsOfAll ss) = .ok () := by
  match ss with
  | [] => rfl
  | s :: rest =>
    obtain ⟨⟨⟩, hs, hrest⟩ := bind_eq_ok.mp h
    exact bind_eq_ok.mpr
      ⟨(), check_withoutComments s hs, check_withoutCommentsOfAll rest hrest⟩

end

end Stmt

namespace Model

/-- The names that the text of a model contains. -/
def writtenNames (m : Model) : List Datum := Stmt.writtenNamesOfAll m.statements

/-- All comments of a model, at any depth of its loops. -/
def comments (m : Model) : List String := Stmt.commentsOfAll m.statements

/-- The same model without comments. -/
def withoutComments (m : Model) : Model :=
  { m with statements := Stmt.withoutCommentsOfAll m.statements }

/-- The text of a valid model is the text without comments, with the comments added. -/
theorem annotated_print {m : Model} {text : String} (hcheck : m.check = .ok ())
    (hnames : ∀ name ∈ m.writtenNames, Inline name.shown) (h : m.print = .ok text) :
    ∃ plain, m.withoutComments.print = .ok plain ∧
      Annotated (Stmt.breaks m.comments) text plain := by
  simp only [print, bind_eq_ok, pure_eq_ok] at h
  obtain ⟨texts, htexts, rfl⟩ := h
  obtain ⟨plains, hplains, hlines⟩ := Stmt.annotated_printAll m.statements hcheck hnames htexts
  have hblock := hlines.block 4 (by decide : Inline "model \x7b") rfl
    (Annotated.refl (by decide : Inline ("\x7d" ++ "")))
  rw [add_zero, String.append_empty, String.append_empty] at hblock
  refine ⟨_, ?_, hblock⟩
  simp only [withoutComments, print, bind_eq_ok, pure_eq_ok]
  exact ⟨plains, hplains, rfl⟩

/-- Comments in a printed model. For a valid model whose names contain neither `#` nor a line
break, the model without its comments is valid too, and both can be printed. Deleting everything
from ` #` to the end of each line of the first text gives the second text if and only if no comment
of the model, at any depth of its loops, contains a line break. -/
theorem uncomment_print {m : Model} (hcheck : m.check = .ok ())
    (hnames : ∀ name ∈ m.writtenNames, Inline name.shown) :
    m.withoutComments.check = .ok () ∧ ∃ text plain, m.print = .ok text ∧
      m.withoutComments.print = .ok plain ∧
      (uncomment text = plain ↔ ∀ comment ∈ m.comments, '\n' ∉ comment.toList) := by
  obtain ⟨text, htext⟩ := succeeds_print hcheck
  obtain ⟨plain, hplain, hannotated⟩ := annotated_print hcheck hnames htext
  refine ⟨Stmt.check_withoutCommentsOfAll m.statements hcheck, text, plain, htext, hplain, ?_⟩
  rw [hannotated.uncomment_eq_iff, Stmt.breaks_eq_zero_iff]

/-- Draws in a loop, with comments behind the draw and behind the loop. -/
private def rowsModel : Model where
  statements :=
    [.loop ["rows # all"] (.text "i") (.range (.literal (.int 1)) (.literal (.int 2)))
      [.sample ["draw", ""] (.index (.text "x") [.var (.text "i")])
        (.dist ⟨.text "dexp", [.literal (.int 1)], none, none⟩)]]

/-- The comment of the loop stands behind the closing brace, and all comments are deleted. -/
theorem uncomment_print_rows :
    rowsModel.check = .ok () ∧ (∀ name ∈ rowsModel.writtenNames, Inline name.shown) ∧
    ∃ text plain, rowsModel.print = .ok text ∧ rowsModel.withoutComments.print = .ok plain ∧
      text = "model \x7b\n    for ( i in 1:2 ) \x7b\n        x[i] ~ dexp(1) # draw # \n" ++
        "    \x7d # rows # all\n\x7d" ∧
      uncomment text = plain := by
  have hcheck : rowsModel.check = .ok () := by rfl
  have hnames : ∀ name ∈ rowsModel.writtenNames, Inline name.shown := by decide +kernel
  have hcomments : ∀ comment ∈ rowsModel.comments, '\n' ∉ comment.toList := by decide +kernel
  obtain ⟨-, text, plain, htext, hplain, hiff⟩ := uncomment_print hcheck hnames
  refine ⟨hcheck, hnames, text, plain, htext, hplain, ?_, hiff.mpr hcomments⟩
  apply Except.ok.inj
  rw [← htext]
  decide +kernel

/-- A constant with a comment of two lines. -/
private def twoLineModel : Model where
  statements := [.assign ["a\nb"] (.var (.text "x")) (.literal (.int 1))]

/-- The second line of the comment stands on a line of its own without a mark in front of it. It is
not deleted, so what is left is not the model without comments. -/
theorem not_uncomment_print_twoLine :
    twoLineModel.check = .ok () ∧ (∀ name ∈ twoLineModel.writtenNames, Inline name.shown) ∧
    ∃ text plain, twoLineModel.print = .ok text ∧ twoLineModel.withoutComments.print = .ok plain ∧
      uncomment text = "model \x7b\n    x <- 1\n    b\n\x7d" ∧
      plain = "model \x7b\n    x <- 1\n\x7d" ∧ uncomment text ≠ plain := by
  have hprint : twoLineModel.print = .ok "model \x7b\n    x <- 1 # a\n    b\n\x7d" := by
    decide +kernel
  have hplain : twoLineModel.withoutComments.print = .ok "model \x7b\n    x <- 1\n\x7d" := by
    decide +kernel
  have hleft : uncomment "model \x7b\n    x <- 1 # a\n    b\n\x7d" =
      "model \x7b\n    x <- 1\n    b\n\x7d" := by
    decide +kernel
  refine ⟨by rfl, by decide +kernel, _, _, hprint, hplain, hleft, rfl, ?_⟩
  rw [hleft]
  decide

end Model

end BayesGraph
