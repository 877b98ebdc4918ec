import BayesGraph.Proofs.LiteralTexts
import BayesGraph.Proofs.ReadExpressions
import BayesGraph.Proofs.WrittenForms

/-!
# Printed expressions keep their meaning

The text of a valid expression is cut into the tokens of the expression, whatever follows it
(`Scans`), and these are read as an expression with the same value (`read_print`).
-/

set_option autoImplicit false

namespace BayesGraph

open Numeral Outcome

namespace Token

/-! ## Words -/

/-- The characters continue a word one after the other. -/
def Continues : List Char → List Char → Prop
  | _, [] => True
  | word, c :: cs => continues word c = true ∧ Continues (word ++ [c]) cs

/-- The character continues no word. -/
def Breaks (c : Char) : Prop := ∀ word, continues word c = false

/-- The rest of a text does not continue a word. -/
def Boundary (rest : List Char) : Prop := ∀ c ∈ rest.head?, Breaks c

variable {numeral : String → Option Datum} {word cs ds rest : List Char} {c : Char}

/-- Characters of names continue every word. -/
theorem continues_of_isNameChar (h : Names.isNameChar c = true) (word : List Char) :
    continues word c = true := by
  unfold continues
  rw [h, Bool.true_or]

/-- Characters of names continue every word one after the other. -/
theorem Continues.of_isNameChar (h : ∀ c ∈ cs, Names.isNameChar c = true) (word : List Char) :
    Continues word cs := by
  induction cs generalizing word with
  | nil => trivial
  | cons c cs ih =>
    obtain ⟨hc, hcs⟩ := List.forall_mem_cons.mp h
    exact ⟨continues_of_isNameChar hc word, ih hcs _⟩

/-- What continues a word can be continued itself. -/
theorem Continues.append (h : Continues word cs) (h' : Continues (word ++ cs) ds) :
    Continues word (cs ++ ds) := by
  induction cs generalizing word with
  | nil => simpa using h'
  | cons c cs ih =>
    refine ⟨h.1, ih h.2 ?_⟩
    simpa using h'

/-- A character that is neither of a name, nor a sign, nor a line break, breaks words. -/
theorem breaks_of_ne (hname : Names.isNameChar c = false) (hplus : c ≠ '+') (hminus : c ≠ '-')
    (hline : c ≠ '\n') : Breaks c := by
  intro word
  unfold continues
  cases word with
  | nil => simp [hname]
  | cons first word => simp [hname, hplus, hminus, hline]

/-- Words end in front of a character that breaks them. -/
theorem Boundary.cons (h : Breaks c) (rest : List Char) : Boundary (c :: rest) := by
  intro _ heq
  cases heq
  exact h

/-- What continues a word is scanned as a part of it. -/
theorem scan_continues (h : Continues word cs) (rest : List Char) :
    scan numeral word (cs ++ rest) = scan numeral (word ++ cs) rest := by
  induction cs generalizing word with
  | nil => simp
  | cons c cs ih =>
    rw [List.cons_append, scan, if_pos h.1, ih h.2, List.append_assoc, List.singleton_append]

/-- A word ends where no word goes on. -/
theorem scan_boundary (h : Boundary rest) (word : List Char) :
    scan numeral word rest =
      (ofWord numeral word).bind fun ts => (scan numeral [] rest).map (ts ++ ·) := by
  cases rest with
  | nil =>
    show ofWord numeral word = (ofWord numeral word).bind fun ts => some (ts ++ [])
    simp
  | cons c rest =>
    have hbreaks : Breaks c := h c rfl
    rw [scan, if_neg (by simp [hbreaks word]), scan, if_neg (by simp [hbreaks []])]
    cases ofWord numeral word with
    | none => rfl
    | some ts =>
      cases scan numeral [] rest with
      | none => rfl
      | some behind => rfl

/-- The text is cut into these tokens, whatever follows behind a boundary. -/
def Scans (numeral : String → Option Datum) (cs : List Char) (ts : List Token) : Prop :=
  ∀ rest, Boundary rest → scan numeral [] (cs ++ rest) = (scan numeral [] rest).map (ts ++ ·)

namespace Scans

variable {ts us : List Token}

/-- Nothing is scanned as nothing. -/
theorem nil : Scans numeral [] [] := by
  intro rest _
  simp

/-- Two parts are scanned one after the other, if words end between them. -/
theorem append (h : Scans numeral cs ts) (h' : Scans numeral ds us)
    (hboundary : ∀ rest, Boundary rest → Boundary (ds ++ rest)) :
    Scans numeral (cs ++ ds) (ts ++ us) := by
  intro rest hrest
  rw [List.append_assoc, h _ (hboundary rest hrest), h' rest hrest, Option.map_map]
  simp only [Function.comp_def, List.append_assoc]

/-- A symbol is scanned as its own token. -/
theorem symbol (hc : continues [] c = false) (hblank : c ≠ ' ') (h : Scans numeral cs ts) :
    Scans numeral (c :: cs) (.symbol c :: ts) := by
  intro rest hrest
  rw [List.cons_append, scan, hc, h rest hrest]
  cases scan numeral [] rest with
  | none => rfl
  | some behind => simp [ofWord, hblank]

/-- A blank is skipped. -/
theorem blank (h : Scans numeral cs ts) : Scans numeral (' ' :: cs) ts := by
  intro rest hrest
  rw [List.cons_append, scan, if_neg (by decide), h rest hrest]
  cases scan numeral [] rest with
  | none => rfl
  | some behind => rfl

/-- A word is scanned as its token. -/
theorem of_word {t : Token} (h : Continues [] cs) (ht : ofWord numeral cs = some [t]) :
    Scans numeral cs [t] := by
  intro rest hrest
  rw [scan_continues h, List.nil_append, scan_boundary hrest, ht]
  rfl

end Scans

/-! ## Names and numerals -/

/-- Digits are characters of names. -/
theorem isNameChar_of_isDigit (h : c.isDigit = true) : Names.isNameChar c = true := by
  simp [Names.isNameChar, Char.isAlphanum, h]

/-- A letter is no digit. -/
theorem isDigit_of_isAlpha (h : c.isAlpha = true) : c.isDigit = false := by
  have hnine : '9'.val.toNat = 57 := rfl
  have hupper : 'A'.val.toNat = 65 := rfl
  have hlower : 'a'.val.toNat = 97 := rfl
  simp only [Char.isAlpha, Char.isUpper, Char.isLower, Bool.or_eq_true, Bool.and_eq_true,
    decide_eq_true_eq, ge_iff_le, UInt32.le_iff_toNat_le] at h
  simp only [Char.isDigit, Bool.and_eq_false_iff, decide_eq_false_iff_not, ge_iff_le,
    UInt32.le_iff_toNat_le]
  omega

/-- A name is one word. -/
theorem scans_name {s : String} (h : Names.isIdentifier s = true) :
    Scans numeral s.toList [.name s] := by
  have hs : String.ofList s.toList = s := String.ofList_toList
  have hident := h
  unfold Names.isIdentifier at h
  cases htext : s.toList with
  | nil =>
    rw [htext] at h
    cases h
  | cons first rest =>
    rw [htext] at h hs
    obtain ⟨hfirst, hbody⟩ := Bool.and_eq_true_iff.mp h
    have hdigit := isDigit_of_isAlpha hfirst
    have hname : Names.isNameChar first = true := by
      simp [Names.isNameChar, Char.isAlphanum, hfirst]
    refine .of_word ⟨continues_of_isNameChar hname [], ?_⟩ ?_
    · by_cases hline : rest.getLast? = some '\n'
      · rw [if_pos hline, List.all_eq_true] at hbody
        have hlast : continues ([first] ++ rest.dropLast) '\n' = true := by
          simp [continues, hdigit]
        have hcontinues : Continues [first] (rest.dropLast ++ ['\n']) :=
          .append (.of_isNameChar hbody [first]) ⟨hlast, trivial⟩
        rwa [List.dropLast_append_getLast? _ hline] at hcontinues
      · rw [if_neg hline, List.all_eq_true] at hbody
        exact .of_isNameChar hbody [first]
    · rw [ofWord, hdigit, hs, hident]
      rfl

/-- Digits are one word, and so is a decimal numeral. -/
theorem continues_digits (h : AreDigits cs) (word : List Char) : Continues word cs :=
  .of_isNameChar (fun c hc => isNameChar_of_isDigit (h c hc)) word

/-- The exponent of a numeral may have a sign. -/
theorem continues_sign {first : Char} (hfirst : first.isDigit = true) (hc : c = '+' ∨ c = '-')
    (front : List Char) : continues (first :: (front ++ ['E'])) c = true := by
  have hlast : (first :: (front ++ ['E'])).getLast? = some 'E' := by
    rw [← List.cons_append, List.getLast?_concat]
  rcases hc with rfl | rfl <;> simp [continues, hfirst, hlast]

/-- A decimal is a word. -/
theorem continues_decimal {whole part tail : List Char} (h : IsDecimal cs whole part tail) :
    Continues [] cs := by
  obtain ⟨first, front, hwhole⟩ := List.exists_cons_of_ne_nil h.before_ne
  have hfirst : first.isDigit = true := h.before first (hwhole ▸ List.mem_cons_self)
  have hpoint : Continues ([] ++ whole) ('.' :: part) :=
    ⟨continues_of_isNameChar rfl _, continues_digits h.behind _⟩
  have htail : Continues ([] ++ (whole ++ '.' :: part)) tail := by
    rcases h.exponent with rfl | ⟨sign, ds, rfl, hsign, hds, -⟩
    · trivial
    · refine ⟨continues_of_isNameChar rfl _, .append ?_ (continues_digits hds _)⟩
      have hmark (c : Char) (hc : c = '+' ∨ c = '-') :
          Continues ([] ++ (whole ++ '.' :: part) ++ ['E']) [c] := by
        rw [hwhole]
        exact ⟨continues_sign hfirst hc (front ++ '.' :: part), trivial⟩
      simp only [List.mem_cons, List.not_mem_nil, or_false] at hsign
      rcases hsign with rfl | rfl | rfl
      · trivial
      · exact hmark '+' (.inl rfl)
      · exact hmark '-' (.inr rfl)
  have hall := ((continues_digits h.before []).append hpoint).append htail
  rw [h.split]
  simpa using hall

/-- The text of a regular number is its sign and a numeral. -/
theorem exists_numeral {d : Datum} (h : d.Regular) : ∃ negative first cs,
    d.isNegative? = some negative ∧ d.literalText.toList = signOf negative ++ first :: cs ∧
      first.isDigit = true ∧ Continues [] (first :: cs) := by
  cases d with
  | int n =>
    have hne : Nat.toDigits 10 n.natAbs ≠ [] := Nat.toDigits_ne_nil
    obtain ⟨first, cs, hdigits⟩ := List.exists_cons_of_ne_nil hne
    have hall := areDigits_toDigits n.natAbs
    rw [hdigits] at hall
    refine ⟨decide (n < 0), first, cs, rfl, ?_, hall first List.mem_cons_self,
      continues_digits hall []⟩
    rw [Datum.toList_literalText_int, hdigits]
  | real x =>
    obtain ⟨cs, whole, part, tail, htext, hdecimal⟩ := Datum.isRealText_realText h.1
    obtain ⟨first, front, hwhole⟩ := List.exists_cons_of_ne_nil hdecimal.before_ne
    have hcs : cs = first :: (front ++ '.' :: (part ++ tail)) := by
      rw [hdecimal.split, hwhole, List.cons_append]
    have hcontinues := continues_decimal hdecimal
    rw [hcs] at htext hcontinues
    exact ⟨x.isNegative, first, _, congrArg some h.isBelowZero_eq, htext,
      hdecimal.before first (hwhole ▸ List.mem_cons_self), hcontinues⟩
  | text _ | truth _ | nothing | list _ | record _ => exact h.elim

/-- The text of a literal is scanned as its tokens. -/
theorem scans_literal {d : Datum} (h : d.Regular) (hread : d.ReadBy numeral) :
    Scans numeral d.literalText.toList (Expr.tokens numeral (.literal d)) := by
  obtain ⟨negative, first, cs, hnegative, htext, hdigit, hcontinues⟩ := exists_numeral h
  obtain ⟨m, hm, -⟩ := hread
  have hminus : first ≠ '-' := by
    rintro rfl
    cases hdigit
  have hunsigned : d.unsigned = String.ofList (first :: cs) := by
    unfold Datum.unsigned
    rw [htext]
    cases negative with
    | true => rfl
    | false =>
      split
      · next heq => exact absurd (List.cons.inj heq).1 hminus
      · rfl
  have hword : Scans numeral (first :: cs) [.number m] := by
    refine .of_word hcontinues ?_
    rw [ofWord, hdigit, ← hunsigned, hm]
    rfl
  rw [Expr.tokens, htext, hnegative, hm]
  cases negative with
  | true => exact .symbol (by decide) (by decide) hword
  | false => exact hword

end Token

/-! ## Printed expressions -/

/-- The operator with the blanks around it. -/
def Operator.written : Operator → String
  | .add => " + "
  | .sub => " - "
  | .mul => " * "
  | .div => " / "
  | .pow => "^"

open Token hiding name number symbol

namespace Expr

variable {numeral : String → Option Datum}

/-- A text in parentheses is scanned with the tokens of the parentheses. -/
theorem scans_enclosed {e : Expr} {s w : String} {least : Nat}
    (h : Scans numeral s.toList (tokens numeral e)) (hw : e.parenthesized s least = .ok w) :
    Scans numeral w.toList (e.enclosed least (tokens numeral e)) := by
  obtain ⟨p, hp, rfl⟩ := parenthesized_eq_ok hw
  have hbinding : e.binding = p := by
    rw [binding, hp]
  unfold enclosed
  rw [hbinding]
  split
  · have hclosing : Scans numeral [')'] [.symbol ')'] := .symbol (by decide) (by decide) .nil
    have hboundary (rest : List Char) (_ : Boundary rest) : Boundary ([')'] ++ rest) :=
      .cons (breaks_of_ne rfl (by decide) (by decide) (by decide)) rest
    have hinner := Scans.symbol (c := '(') rfl (by decide) (h.append hclosing hboundary)
    simpa using hinner
  · exact h

/-- The text of an operation is put together from those of the operands. -/
theorem print_apply {op : Operator} {a b : Expr} {text : String}
    (h : (op.apply a b).print = .ok text) : ∃ s w t v, a.print = .ok s ∧
      a.parenthesized s op.left = .ok w ∧ b.print = .ok t ∧ b.parenthesized t op.right = .ok v ∧
        text = w ++ op.written ++ v := by
  cases op <;> simp only [Operator.apply, print, bind_eq_ok, pure_eq_ok] at h <;>
    obtain ⟨s, hs, w, hw, t, ht, v, hv, rfl⟩ := h <;> exact ⟨s, w, t, v, hs, hw, ht, hv, rfl⟩

/-- The text of an operation is scanned as the tokens of the operation. -/
theorem scans_apply {op : Operator} {a b : Expr} {s t w v : String}
    (ha : Scans numeral s.toList (tokens numeral a)) (hw : a.parenthesized s op.left = .ok w)
    (hb : Scans numeral t.toList (tokens numeral b)) (hv : b.parenthesized t op.right = .ok v) :
    Scans numeral (w ++ op.written ++ v).toList (tokens numeral (op.apply a b)) := by
  have hright := scans_enclosed hb hv
  rw [tokens_apply, String.toList_append, String.toList_append, List.append_assoc]
  refine (scans_enclosed ha hw).append ?_ ?_
  · cases op with
    | pow => exact .symbol (by decide) (by decide) hright
    | _ => exact .blank (.symbol (by decide) (by decide) hright.blank)
  · intro rest _
    cases op <;> exact .cons (breaks_of_ne rfl (by decide) (by decide) (by decide)) _

/-- The items of a list are cut one after the other. -/
theorem scans_items {es : List Expr} {texts : List String} (h : printAll es = .ok texts)
    (hall : ∀ e ∈ es, ∀ text, e.print = .ok text → Scans numeral text.toList (tokens numeral e)) :
    Scans numeral (", ".intercalate texts).toList (tokensOfAll numeral es) := by
  induction es generalizing texts with
  | nil =>
    cases h
    exact .nil
  | cons e es ih =>
    simp only [printAll, bind_eq_ok, pure_eq_ok] at h
    obtain ⟨text, htext, texts, htexts, -, -, rfl⟩ := h
    obtain ⟨he, hes⟩ := List.forall_mem_cons.mp hall
    have hfirst := he text htext
    have hrest := ih htexts hes
    cases es with
    | nil =>
      cases htexts
      simpa [tokensOfAll] using hfirst
    | cons next es =>
      have hne : texts ≠ [] := by
        rintro rfl
        simp only [printAll, bind_eq_ok, pure_eq_ok] at htexts
        obtain ⟨_, -, _, -, -, -, heq⟩ := htexts
        cases heq
      have hseparated : Scans numeral (',' :: ' ' :: (", ".intercalate texts).toList)
          (.symbol ',' :: tokensOfAll numeral (next :: es)) :=
        .symbol (by decide) (by decide) hrest.blank
      have htoList : (", ".intercalate (text :: texts)).toList =
          text.toList ++ ',' :: ' ' :: (", ".intercalate texts).toList := by
        rw [String.intercalate_cons_of_ne_nil hne, String.toList_append, String.toList_append,
          List.append_assoc]
        rfl
      rw [htoList, tokensOfAll]
      refine hfirst.append hseparated fun rest _ => ?_
      exact .cons (breaks_of_ne rfl (by decide) (by decide) (by decide)) _

/-- A name with a list in brackets. -/
theorem scans_bracketed {opening closing : Char}
    (h : opening = '(' ∧ closing = ')' ∨ opening = '[' ∧ closing = ']') {name : String}
    (hname : Names.isIdentifier name = true) {cs : List Char} {ts : List Token}
    (hitems : Scans numeral cs ts) :
    Scans numeral (name.toList ++ opening :: (cs ++ [closing]))
      (.name name :: .symbol opening :: (ts ++ [.symbol closing])) := by
  have hsymbols : continues [] opening = false ∧ opening ≠ ' ' ∧ Breaks opening ∧
      continues [] closing = false ∧ closing ≠ ' ' ∧ Breaks closing := by
    rcases h with ⟨rfl, rfl⟩ | ⟨rfl, rfl⟩ <;>
      exact ⟨rfl, by decide, breaks_of_ne rfl (by decide) (by decide) (by decide), rfl, by decide,
        breaks_of_ne rfl (by decide) (by decide) (by decide)⟩
  obtain ⟨hopening, hopening', hbreaks, hclosing, hclosing', hbreaks'⟩ := hsymbols
  have hend : Scans numeral (cs ++ [closing]) (ts ++ [.symbol closing]) :=
    hitems.append (.symbol hclosing hclosing' .nil) fun rest _ => .cons hbreaks' rest
  exact (scans_name hname).append (hend.symbol hopening hopening') fun rest _ => .cons hbreaks _

/-! ## Valid expressions -/

/-- What the text of an expression needs to be readable: names are identifiers, an indexed array has
an index, and literals are regular numbers whose texts are read back. -/
inductive Readable (numeral : String → Option Datum) : Bool → Expr → Prop where
  | literal {inIndex : Bool} {d : Datum} (h : d.Regular) (hread : d.ReadBy numeral) :
    Readable numeral inIndex (.literal d)
  | var {inIndex : Bool} {s : String} (h : Names.isIdentifier s = true) :
    Readable numeral inIndex (.var (.text s))
  | colon : Readable numeral true .colon
  | range {start stop : Expr} (hstart : Readable numeral false start)
    (hstop : Readable numeral false stop) : Readable numeral true (.range start stop)
  | index {inIndex : Bool} {name : String} {indices : List Expr}
    (hname : Names.isIdentifier name = true) (hne : indices ≠ [])
    (h : ∀ e ∈ indices, Readable numeral true e) :
    Readable numeral inIndex (.index (.text name) indices)
  | call {inIndex : Bool} {func : String} {arguments : List Expr}
    (hname : Names.isIdentifier func = true) (h : ∀ e ∈ arguments, Readable numeral false e) :
    Readable numeral inIndex (.call (.text func) arguments)
  | negate {inIndex : Bool} {e : Expr} (h : Readable numeral false e) :
    Readable numeral inIndex (.negate e)
  | operation {inIndex : Bool} (op : Operator) {a b : Expr} (ha : Readable numeral false a)
    (hb : Readable numeral false b) : Readable numeral inIndex (op.apply a b)

namespace Readable

variable {inIndex : Bool} {e : Expr}

/-- The text of a readable expression is cut into its tokens. -/
theorem scans (h : Readable numeral inIndex e) {text : String} (htext : e.print = .ok text) :
    Scans numeral text.toList (tokens numeral e) := by
  induction h generalizing text with
  | literal h hread =>
    cases htext
    exact scans_literal h hread
  | var h =>
    cases htext
    exact scans_name h
  | colon =>
    cases htext
    exact .nil
  | range _ _ ihstart ihstop =>
    simp only [print, bind_eq_ok, pure_eq_ok] at htext
    obtain ⟨s, hs, t, ht, rfl⟩ := htext
    rw [String.toList_append, String.toList_append, List.append_assoc]
    refine (ihstart hs).append (.symbol (by decide) (by decide) (ihstop ht)) fun rest _ => ?_
    exact .cons (breaks_of_ne rfl (by decide) (by decide) (by decide)) _
  | index hname _ _ ih =>
    simp only [print, bind_eq_ok, pure_eq_ok] at htext
    obtain ⟨texts, htexts, rfl⟩ := htext
    have hitems := scans_items htexts fun e he text => ih e he
    simpa [tokens, Datum.shown] using scans_bracketed (.inr ⟨rfl, rfl⟩) hname hitems
  | call hname _ ih =>
    simp only [print, bind_eq_ok, pure_eq_ok] at htext
    obtain ⟨texts, htexts, rfl⟩ := htext
    have hitems := scans_items htexts fun e he text => ih e he
    simpa [tokens, Datum.shown] using scans_bracketed (.inl ⟨rfl, rfl⟩) hname hitems
  | negate _ ih =>
    simp only [print, bind_eq_ok, pure_eq_ok] at htext
    obtain ⟨s, hs, w, hw, rfl⟩ := htext
    rw [String.toList_append]
    exact .symbol (by decide) (by decide) (scans_enclosed (ih hs) hw)
  | operation op _ _ iha ihb =>
    obtain ⟨s, w, t, v, hs, hw, ht, hv, rfl⟩ := print_apply htext
    exact scans_apply (iha hs) hw (ihb ht) hv

/-- Slices are accepted as index slots only. -/
theorem inIndex_of_isSlice (h : Readable numeral inIndex e) (hslice : e.isSlice = true) :
    inIndex = true := by
  induction h with
  | colon | range => rfl
  | operation op => cases op <;> cases hslice
  | literal | var | index | call | negate => cases hslice

/-- A readable expression is read as itself if it is so in slots. -/
theorem reads_of_onSlot (h : Readable numeral false e) (hslot : OnSlot (Reads numeral) e) :
    Reads numeral e := by
  have hslice : e.isSlice ≠ true := fun hslice => Bool.false_ne_true (h.inIndex_of_isSlice hslice)
  cases e with
  | colon | range _ _ => exact absurd rfl hslice
  | _ => exact hslot

/-- The tokens of a readable expression are read as the expression. -/
theorem onSlot_reads (h : Readable numeral inIndex e) : OnSlot (Reads numeral) e := by
  induction h with
  | literal h hread => exact Reads.literal h hread
  | var h => exact Reads.var _
  | colon => trivial
  | range hstart hstop ihstart ihstop =>
    exact ⟨hstart.reads_of_onSlot ihstart, hstop.reads_of_onSlot ihstop⟩
  | index _ hne _ ih => exact Reads.list .index _ hne ih
  | @call _ func arguments _ h ih =>
    by_cases hne : arguments = []
    · rw [hne]
      exact Reads.call_nil func
    · exact Reads.list .call func hne fun e he => (h e he).reads_of_onSlot (ih e he)
  | negate h ih => exact (h.reads_of_onSlot ih).negate
  | operation op ha hb iha ihb =>
    have hreads := (ha.reads_of_onSlot iha).operation op (hb.reads_of_onSlot ihb)
    cases op <;> exact hreads

end Readable

section

variable (numeral : String → Option Datum)

mutual

/-- All names are identifiers, and the literals are regular numbers whose texts are read back. An
indexed array has an index, as it has whenever `mkIndex` builds it. -/
def HasText : Expr → Prop
  | .literal d => d.Regular ∧ d.ReadBy numeral
  | .var name => Names.isIdentifierObject name = true
  | .range a b | .add a b | .sub a b | .mul a b | .div a b | .pow a b => HasText a ∧ HasText b
  | .index name indices =>
    Names.isIdentifierObject name = true ∧ indices ≠ [] ∧ HasTextAll indices
  | .negate e => HasText e
  | .call func arguments => Names.isIdentifierObject func = true ∧ HasTextAll arguments
  | .colon | .ref _ | .refArray _ _ | .raw _ | .rawList _ => True

/-- The expressions of a list have texts. -/
def HasTextAll : List Expr → Prop
  | [] => True
  | e :: rest => HasText e ∧ HasTextAll rest

end

end

/-- An identifier is a text. -/
theorem exists_name {name : Datum} (h : Names.isIdentifierObject name = true) :
    ∃ s, name = .text s ∧ Names.isIdentifier s = true := by
  cases name with
  | text s => exact ⟨s, rfl, h⟩
  | int _ | real _ | truth _ | nothing | list _ | record _ => cases h

mutual

/-- A valid expression can be read, provided that its names and literals can. -/
theorem readable_of_check {s : Stmt} {inIndex : Bool} (e : Expr)
    (hcheck : e.check s inIndex = .ok ()) (h : e.HasText numeral) : Readable numeral inIndex e := by
  match e with
  | .literal d => exact .literal h.1 h.2
  | .var name =>
    obtain ⟨s, rfl, hname⟩ := exists_name h
    exact .var hname
  | .colon =>
    cases inIndex with
    | true => exact .colon
    | false => cases hcheck
  | .range start stop =>
    cases inIndex with
    | true =>
      obtain ⟨⟨⟩, hstart, hstop⟩ := bind_eq_ok.mp hcheck
      exact .range (readable_of_check start hstart h.1) (readable_of_check stop hstop h.2)
    | false => cases hcheck
  | .index name indices =>
    obtain ⟨hname, hne, hindices⟩ := h
    obtain ⟨s, rfl, hname⟩ := exists_name hname
    exact .index hname hne (readable_of_checkAll indices hcheck hindices)
  | .negate e => exact .negate (readable_of_check e hcheck h)
  | .add a b =>
    obtain ⟨⟨⟩, ha, hb⟩ := bind_eq_ok.mp hcheck
    exact .operation .add (readable_of_check a ha h.1) (readable_of_check b hb h.2)
  | .sub a b =>
    obtain ⟨⟨⟩, ha, hb⟩ := bind_eq_ok.mp hcheck
    exact .operation .sub (readable_of_check a ha h.1) (readable_of_check b hb h.2)
  | .mul a b =>
    obtain ⟨⟨⟩, ha, hb⟩ := bind_eq_ok.mp hcheck
    exact .operation .mul (readable_of_check a ha h.1) (readable_of_check b hb h.2)
  | .div a b =>
    obtain ⟨⟨⟩, ha, hb⟩ := bind_eq_ok.mp hcheck
    exact .operation .div (readable_of_check a ha h.1) (readable_of_check b hb h.2)
  | .pow a b =>
    obtain ⟨⟨⟩, ha, hb⟩ := bind_eq_ok.mp hcheck
    exact .operation .pow (readable_of_check a ha h.1) (readable_of_check b hb h.2)
  | .call func arguments =>
    obtain ⟨hname, harguments⟩ := h
    obtain ⟨f, rfl, hname⟩ := exists_name hname
    rw [check] at hcheck
    split at hcheck
    · cases hcheck
    · exact .call hname (readable_of_checkAll arguments hcheck harguments)
  | .ref _ | .refArray _ _ | .raw _ | .rawList _ => cases hcheck

/-- Valid expressions of a list can be read. -/
theorem readable_of_checkAll {s : Stmt} {inIndex : Bool} (es : List Expr)
    (hcheck : checkAll s inIndex es = .ok ()) (h : HasTextAll numeral es) :
    ∀ e ∈ es, Readable numeral inIndex e := by
  match es with
  | [] =>
    intro e he
    cases he
  | e :: rest =>
    obtain ⟨⟨⟩, he, hrest⟩ := bind_eq_ok.mp hcheck
    exact List.forall_mem_cons.mpr
      ⟨readable_of_check e he h.1, readable_of_checkAll rest hrest h.2⟩

end

/-- What is read from the tokens of a whole text is the expression. -/
theorem Reads.read {e : Expr} (h : Reads numeral e) :
    ∃ e', readOperand [] (tokens numeral e) = some e' ∧ e'.Equivalent e := by
  have hdetached : Detached [] := by
    intro c tail heq
    cases heq
  obtain ⟨stack, x, hread, -, hstate⟩ := h [] [] trivial (Nat.zero_le _) hdetached
  obtain ⟨hstack, hx⟩ := hstate 1 Nat.one_pos e.binding_pos
  have hnil : (Waiting.finish 1 stack x).1 = [] := by
    generalize (Waiting.finish 1 stack x).1 = below at hstack
    cases hstack
    rfl
  rw [List.append_nil] at hread
  refine ⟨(Waiting.finish 1 stack x).2, ?_, hx⟩
  rw [hread, readOperator, ← Prod.mk.eta (p := Waiting.finish 1 stack x), hnil]

end Expr

/-- A valid expression keeps its meaning when it is printed. If its names are identifiers and its
literals are regular numbers whose texts are read back, the printed text can be read, and what is
read has the same value under every interpretation over a field. Slices are accepted between
brackets only, and there they are read as slots that select the same. -/
theorem read_print {numeral : String → Option Datum} {s : Stmt} {e : Expr}
    (hcheck : e.check s false = .ok ()) (h : e.HasText numeral) : ∃ text e',
      e.print = .ok text ∧ Expr.read? numeral text = some e' ∧
        ∀ (K : Type) [Field K] (I : Interpretation K), e'.value I = e.value I := by
  have hreadable := Expr.readable_of_check e hcheck h
  obtain ⟨text, htext⟩ := Expr.succeeds_print e hcheck
  obtain ⟨e', hread, hvalue⟩ := (hreadable.reads_of_onSlot hreadable.onSlot_reads).read
  have hscan := hreadable.scans htext [] fun c hc => by cases hc
  rw [List.append_nil] at hscan
  refine ⟨text, e', htext, ?_, fun K _ I => hvalue.value_eq I⟩
  unfold Expr.read?
  rw [hscan]
  simpa [Token.scan, Token.ofWord] using hread

/-- The expression `a * (b / c) - x[, 1:n]^(-2)`. -/
private def slopeExpr : Expr :=
  .sub (.mul (.var (.text "a")) (.div (.var (.text "b")) (.var (.text "c"))))
    (.pow (.index (.text "x") [.colon, .range (.literal (.int 1)) (.var (.text "n"))])
      (.literal (.int (-2))))

/-- The parentheses around a quotient are left out, and the quotient still counts as the second
factor. -/
theorem read_print_slope : slopeExpr.print = .ok "a * b / c - x[, 1:n]^(-2)" ∧
    ∃ e', Expr.read? Datum.readLiteral? "a * b / c - x[, 1:n]^(-2)" = some e' ∧
      ∀ (K : Type) [Field K] (I : Interpretation K), e'.value I =
        I.var (.text "a") * (I.var (.text "b") / I.var (.text "c")) -
          I.power (I.index (.text "x") [.whole, .span 1 (I.var (.text "n"))]) (-2) := by
  have hprint : slopeExpr.print = .ok "a * b / c - x[, 1:n]^(-2)" := by decide +kernel
  have hone : Datum.ReadBy Datum.readLiteral? (.int 1) := by
    have hunsigned : Datum.unsigned (.int 1) = Datum.literalText (.int 1) := by decide +kernel
    exact ⟨.int 1, hunsigned ▸ Datum.readLiteral?_int 1, by norm_num [Datum.rational]⟩
  have htwo : Datum.ReadBy Datum.readLiteral? (.int (-2)) := by
    have hunsigned : Datum.unsigned (.int (-2)) = Datum.literalText (.int 2) := by decide +kernel
    exact ⟨.int 2, hunsigned ▸ Datum.readLiteral?_int 2, by norm_num [Datum.rational]⟩
  have hname (s : String) (h : Names.isIdentifier s = true) :
      Names.isIdentifierObject (.text s) = true := h
  have htext : slopeExpr.HasText Datum.readLiteral? := by
    have hslots : Expr.HasTextAll Datum.readLiteral?
        [.colon, .range (.literal (.int 1)) (.var (.text "n"))] :=
      ⟨trivial, ⟨⟨trivial, hone⟩, hname "n" (by decide)⟩, trivial⟩
    exact ⟨⟨hname "a" (by decide), hname "b" (by decide), hname "c" (by decide)⟩,
      ⟨hname "x" (by decide), List.cons_ne_nil _ _, hslots⟩, trivial, htwo⟩
  obtain ⟨text, e', htext', hread, hvalue⟩ :=
    read_print (s := .raw (.raw .nothing)) (e := slopeExpr) rfl htext
  obtain rfl := Except.ok.inj (hprint.symm.trans htext')
  refine ⟨hprint, e', hread, fun K _ I => ?_⟩
  rw [hvalue K I]
  simp [slopeExpr, Expr.value, Expr.slotsOfAll, Datum.rational]

end BayesGraph
