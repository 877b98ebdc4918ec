import BayesGraph.Printer
import BayesGraph.Proofs.NumeralTexts
import BayesGraph.Proofs.Outcome

/-!
# Literals in written form

The text of an integer is read back as the integer. The text of a double has the shortest digits
that are read back as the double, if its magnitude is from `1e-3` up to `1e5`. Outside this range
the text has two digits only, and it is read back if and only if the double is the nearest one to
that rounding.
-/

set_option autoImplicit false

namespace BayesGraph

open Numeral

/-! ## Real literals -/

namespace Double

/-- The double is zero, or its magnitude lies from `1e-3` up to `1e5`, where it is written without
an exponent. -/
def Plain (x : Double) : Prop :=
  x.isZero = true ∨ x.magnitudeAtLeast 1 1000 = true ∧ x.magnitudeAtLeast 100000 1 = false

/-- The test of the magnitude compares with the magnitude of the double. -/
theorem magnitudeAtLeast_iff {x : Double} (hfinite : x.isFinite = true) {num den : Nat}
    (hden : 0 < den) : x.magnitudeAtLeast num den = true ↔ (num / den : ℝ) ≤ x.magnitude := by
  have hden' : (0 : ℝ) < den := by exact_mod_cast hden
  have hdenominator : (0 : ℝ) < x.denominator := by exact_mod_cast x.denominator_pos
  rw [magnitudeAtLeast, if_pos hfinite, decide_eq_true_iff, ← numerator_div_denominator,
    div_le_div_iff₀ hden' hdenominator]
  exact_mod_cast Iff.rfl

/-- A finite double is a number. -/
theorem isNaN_of_isFinite {x : Double} (h : x.isFinite = true) : x.isNaN = false := by
  rw [isFinite, bne_iff_ne] at h
  simp [isNaN, h]

/-- A finite double is no infinity. -/
theorem isInfinite_of_isFinite {x : Double} (h : x.isFinite = true) : x.isInfinite = false := by
  rw [isFinite, bne_iff_ne] at h
  simp [isInfinite, h]

/-- The sign in front of a numeral is that of the double. -/
theorem toList_sign (x : Double) :
    (if x.isNegative then "-" else "").toList = signOf x.isNegative := by
  cases x.isNegative <;> rfl

end Double

namespace Datum

open Double

variable {x : Double}

/-- A plain double has its shortest numeral as text. -/
theorem realText_of_plain (hfinite : x.isFinite = true) (h : x.Plain) : realText x = x.shortest := by
  unfold realText
  rw [if_neg]
  rcases h with hzero | ⟨hlow, hhigh⟩
  · have hlarge : x.magnitudeAtLeast 100000 1 = false := by
      rw [Bool.eq_false_iff, ne_eq, magnitudeAtLeast_iff hfinite Nat.one_pos, magnitude,
        mantissa_eq_zero hzero]
      norm_num
    simp [hzero, hlarge]
  · simp [hlow, hhigh]

/-- Another double has a numeral with two digits as text, without the padding of the exponent. -/
theorem realText_of_not_plain (hfinite : x.isFinite = true) (h : ¬ x.Plain) :
    realText x = String.ofList (dropPadding (x.scientific 1 "E").toList) := by
  unfold realText
  rw [if_pos, isInfinite_of_isFinite hfinite]
  · rfl
  · unfold Plain at h
    simp only [not_or, not_and, Bool.not_eq_true, Bool.not_eq_false] at h
    obtain ⟨hzero, hrange⟩ := h
    by_cases hlow : x.magnitudeAtLeast 1 1000 = true
    · simp [hrange hlow]
    · simp [hzero, hlow, isNaN_of_isFinite hfinite]

/-- A double between `1e-3` and `1e5` has its leading digit around the point. -/
theorem order_of_plain (hfinite : x.isFinite = true) (hzero : ¬ x.isZero = true) (h : x.Plain) :
    -3 ≤ Decimal.order x.numerator x.denominator ∧
      Decimal.order x.numerator x.denominator ≤ 4 := by
  obtain ⟨hlow, hhigh⟩ := h.resolve_left hzero
  obtain ⟨hlower, hupper⟩ := Decimal.order_bounds x.denominator_pos
    (Decimal.not_extremely_small hzero)
  rw [numerator_div_denominator] at hlower hupper
  rw [magnitudeAtLeast_iff hfinite (by decide)] at hlow
  rw [Bool.eq_false_iff, ne_eq, magnitudeAtLeast_iff hfinite (by decide), not_le] at hhigh
  have hleast : (10 : ℝ) ^ (-3 : ℤ) < 10 ^ (Decimal.order x.numerator x.denominator + 1) := by
    refine lt_of_le_of_lt ?_ (hlow.trans_lt hupper)
    norm_num
  have hgreatest : (10 : ℝ) ^ Decimal.order x.numerator x.denominator < 10 ^ (5 : ℤ) := by
    refine (hlower.trans_lt hhigh).trans_le ?_
    norm_num
  have hleast' := (zpow_lt_zpow_iff_right₀ (by norm_num)).mp hleast
  have hgreatest' := (zpow_lt_zpow_iff_right₀ (by norm_num)).mp hgreatest
  omega

/-- The text of a plain double is read back as the double. -/
theorem read?_realText_of_plain (hfinite : x.isFinite = true) (h : x.Plain) :
    IsRealText (realText x) x.isNegative ∧ read? (realText x) = some x := by
  rw [realText_of_plain hfinite h]
  unfold Double.shortest
  rw [isNaN_of_isFinite hfinite, isInfinite_of_isFinite hfinite]
  simp only [Bool.false_eq_true, if_false]
  by_cases hzero : x.isZero = true
  · have htext : ((if x.isNegative then "-" else "") ++ "0.0").toList =
        signOf x.isNegative ++ ['0', '.', '0'] := by
      rw [String.toList_append, toList_sign]
      rfl
    have hdecimal : IsDecimal ['0', '.', '0'] ['0'] ['0'] [] :=
      ⟨rfl, areDigits_zeros 1, List.cons_ne_nil _ _, areDigits_zeros 1, List.cons_ne_nil _ _,
        Or.inl rfl⟩
    rw [if_pos hzero]
    refine ⟨⟨_, _, _, _, htext, hdecimal⟩, ?_⟩
    rw [read?_of_isDecimal htext hdecimal rfl]
    have hscale : scale x.isNegative 0 (-1) = nearest x.isNegative 0 1 := by simp [scale]
    refine congrArg some (hscale.trans (Decimal.nearest_magnitude hfinite Nat.one_pos ?_))
    rw [magnitude, mantissa_eq_zero hzero]
    simp
  · obtain ⟨hlow, hhigh⟩ := order_of_plain hfinite hzero h
    obtain ⟨hstarts, hrounds⟩ := Decimal.rounds_shortest hzero
    have hexponent : -4 ≤ (Decimal.shortest x).exponent ∧ (Decimal.shortest x).exponent < 16 := by
      have hplace := hstarts.2
      omega
    obtain ⟨whole, part, hdecimal, hvalue⟩ := spelledBy_positional hstarts.1
    obtain ⟨hleast, hgreatest⟩ := hstarts.value_range hfinite hzero
    have htext : ((if x.isNegative then "-" else "") ++ positional (Decimal.shortest x)).toList =
        signOf x.isNegative ++ (positional (Decimal.shortest x)).toList := by
      rw [String.toList_append, toList_sign]
    rw [if_neg hzero, if_pos hexponent]
    refine ⟨⟨_, _, _, _, htext, hdecimal⟩, ?_⟩
    rw [read?_of_isDecimal htext hdecimal rfl, zero_sub]
    rw [← hvalue] at hrounds hleast hgreatest
    rw [scale_of_rounds hfinite hrounds hleast hgreatest]

/-! ## Scientific notation -/

/-- Digits have no padding. -/
theorem dropPadding_of_areDigits {ds : List Char} (h : AreDigits ds) : dropPadding ds = ds := by
  induction ds with
  | nil => rfl
  | cons c ds ih =>
    obtain ⟨hc, hds⟩ := List.forall_mem_cons.mp h
    unfold dropPadding
    split
    · next heq =>
      cases heq
      cases hc
    · next heq =>
      cases heq
      cases hc
    · next heq =>
      cases heq
      rw [ih hds]
    · next heq => cases heq

/-- Only what stands behind the mark of the exponent can be padding. -/
theorem dropPadding_append {cs : List Char} (h : 'E' ∉ cs) (rest : List Char) :
    dropPadding (cs ++ rest) = cs ++ dropPadding rest := by
  induction cs with
  | nil => rfl
  | cons c cs ih =>
    obtain ⟨hc, hcs⟩ := not_or.mp (mt List.mem_cons.mpr h)
    rw [List.cons_append, List.cons_append, ← ih hcs]
    conv_lhs => unfold dropPadding
    split
    · next heq => exact absurd (List.cons.inj heq).1.symm hc
    · next heq => exact absurd (List.cons.inj heq).1.symm hc
    · next heq =>
      cases heq
      rfl
    · next heq => cases heq

/-- A zero behind the sign is the only padding. -/
theorem dropPadding_of_ne_zero {sign d : Char} {ds : List Char} (hsign : sign ≠ 'E')
    (hd : d ≠ '0') (hds : AreDigits (d :: ds)) :
    dropPadding ('E' :: sign :: d :: ds) = 'E' :: sign :: d :: ds := by
  have hsign' : 'E' ∉ [sign] := by simpa using Ne.symm hsign
  have hinner := dropPadding_append hsign' (d :: ds)
  rw [dropPadding_of_areDigits hds] at hinner
  unfold dropPadding
  split
  · next heq =>
    cases heq
    exact absurd rfl hd
  · next heq =>
    cases heq
    exact absurd rfl hd
  · next heq =>
    cases heq
    exact congrArg ('E' :: ·) hinner
  · next heq => cases heq

/-- A sign and the digits of an integer are read as this integer. -/
theorem isExponent_of_digits {e : ℤ} (sign : List Char) {ds : List Char}
    (hsign : sign ∈ [[], ['+'], ['-']]) (htake : takeSign (sign ++ ds) = (decide (e < 0), ds))
    (hds : AreDigits ds) (hne : ds ≠ []) (hvalue : Nat.ofDigitChars 10 ds 0 = e.natAbs) :
    IsExponent ('E' :: (sign ++ ds)) ∧ exponent? ('E' :: (sign ++ ds)) = some e := by
  refine ⟨⟨sign, ds, rfl, hsign, hds, hne⟩, ?_⟩
  rw [exponent?_of_digits htake hds hne, hvalue]
  congr 1
  split
  · next hneg =>
    have hneg := of_decide_eq_true hneg
    omega
  · next hneg =>
    have hneg := of_decide_eq_false (Bool.eq_false_iff.mpr hneg)
    omega

/-- An exponent without its padding is still the same exponent. -/
theorem dropPadding_exponentText (e : ℤ) :
    IsExponent (dropPadding ('E' :: (exponentText e).toList)) ∧
      exponent? (dropPadding ('E' :: (exponentText e).toList)) = some e := by
  obtain ⟨ds, htext, hds, hlength, hvalue⟩ := exponentText_eq e
  rw [htext]
  obtain ⟨d, ds, rfl⟩ : ∃ d ds', ds = d :: ds' := by
    cases ds with
    | nil => cases hlength
    | cons d ds => exact ⟨d, ds, rfl⟩
  obtain ⟨hd, hrest⟩ := List.forall_mem_cons.mp hds
  by_cases hzero : d = '0'
  · subst hzero
    have hne : ds ≠ [] := by
      rintro rfl
      simp at hlength
    have hvalueRest : Nat.ofDigitChars 10 ds 0 = e.natAbs := by
      rw [← hvalue, Nat.ofDigitChars_cons]
      rfl
    by_cases hneg : e < 0
    · have htake : takeSign ('-' :: ds) = (decide (e < 0), ds) := by
        rw [takeSign_minus, decide_eq_true hneg]
      rw [if_pos hneg, dropPadding, dropPadding_of_areDigits hrest]
      exact isExponent_of_digits ['-'] (by decide) htake hrest hne hvalueRest
    · have htake : takeSign ds = (decide (e < 0), ds) := by
        rw [takeSign_of_areDigits hrest, decide_eq_false hneg]
      rw [if_neg hneg, dropPadding, dropPadding_of_areDigits hrest]
      exact isExponent_of_digits [] (by decide) htake hrest hne hvalueRest
  · have hne := List.cons_ne_nil d ds
    by_cases hneg : e < 0
    · have htake : takeSign ('-' :: d :: ds) = (decide (e < 0), d :: ds) := by
        rw [takeSign_minus, decide_eq_true hneg]
      rw [if_pos hneg, dropPadding_of_ne_zero (by decide) hzero hds]
      exact isExponent_of_digits ['-'] (by decide) htake hds hne hvalue
    · have htake : takeSign ('+' :: d :: ds) = (decide (e < 0), d :: ds) := by
        rw [takeSign_plus, decide_eq_false hneg]
      rw [if_neg hneg, dropPadding_of_ne_zero (by decide) hzero hds]
      exact isExponent_of_digits ['+'] (by decide) htake hds hne hvalue

/-- Two significant digits of a double. -/
def twoDigits (x : Double) : Decimal := Decimal.rounded x.numerator x.denominator 2

/-- The numeral with two digits starts at the order of the double. -/
theorem twoDigits_spec (hzero : ¬ x.isZero = true) :
    (twoDigits x).StartsAt (Decimal.order x.numerator x.denominator) ∧ (twoDigits x).count = 2 := by
  refine ⟨(Decimal.rounded_spec hzero (by decide)).1, ?_⟩
  unfold twoDigits Decimal.rounded
  dsimp only
  split <;> rfl

/-- A double in scientific notation with two digits. -/
theorem toList_scientific (hfinite : x.isFinite = true) (hzero : ¬ x.isZero = true) {a b : Char}
    (hab : Nat.toDigits 10 (twoDigits x).digits = [a, b]) : (x.scientific 1 "E").toList =
      signOf x.isNegative ++ [a, '.', b] ++ 'E' :: (exponentText (twoDigits x).exponent).toList := by
  have htext : (twoDigits x).digitText = String.ofList [a, b] := by
    rw [Decimal.digitText, Nat.toString_eq_ofList_toDigits, hab]
  have hlength : (twoDigits x).digitText.length = 2 := by
    rw [← String.length_toList, htext, String.toList_ofList]
    rfl
  unfold scientific
  rw [isNaN_of_isFinite hfinite, isInfinite_of_isFinite hfinite, if_neg hzero]
  dsimp only
  rw [show Decimal.rounded x.numerator x.denominator (1 + 1) = twoDigits x from rfl, hlength, htext]
  simp only [Bool.false_eq_true, if_false, String.toList_append, toList_sign]
  simp [pointAfterFirst]

/-- The text of a double with an exponent is read back as the double nearest to its two digits. -/
theorem read?_realText_of_not_plain (hfinite : x.isFinite = true) (h : ¬ x.Plain) :
    IsRealText (realText x) x.isNegative ∧ read? (realText x) =
      some (nearest x.isNegative (twoDigits x).quotient.1 (twoDigits x).quotient.2) := by
  have hzero : ¬ x.isZero = true := fun hzero => h (Or.inl hzero)
  obtain ⟨hstarts, hcount⟩ := twoDigits_spec hzero
  obtain ⟨hleast, hgreatest⟩ := hstarts.value_range hfinite hzero
  obtain ⟨htail, hexponent⟩ := dropPadding_exponentText (twoDigits x).exponent
  have hlength := Decimal.length_toDigits_eq hstarts.1.1 hstarts.1.2.1 hstarts.1.2.2
  rw [hcount] at hlength
  obtain ⟨a, b, hab⟩ := List.length_eq_two.mp hlength
  have hdigits := areDigits_toDigits (twoDigits x).digits
  have hvalue := Nat.ofDigitChars_ten_toDigits (n := (twoDigits x).digits)
  rw [hab] at hdigits hvalue
  obtain ⟨ha, hb⟩ := List.forall_mem_cons.mp hdigits
  have hmark : 'E' ∉ signOf x.isNegative ++ [a, '.', b] := by
    have hdigit {c : Char} (hc : c.isDigit = true) : 'E' ≠ c := by
      rintro rfl
      cases hc
    have hsign : 'E' ∉ signOf x.isNegative := by
      cases x.isNegative <;> simp [signOf]
    simp [hsign, hdigit ha, hdigit (hb b (List.mem_singleton_self b))]
  have htext : (realText x).toList = signOf x.isNegative ++ ([a] ++ '.' :: ([b] ++
      dropPadding ('E' :: (exponentText (twoDigits x).exponent).toList))) := by
    rw [realText_of_not_plain hfinite h, String.toList_ofList, toList_scientific hfinite hzero hab,
      dropPadding_append hmark, List.append_assoc]
    rfl
  have hdecimal := IsDecimal.mk rfl (fun c hc => List.mem_singleton.mp hc ▸ ha)
    (List.cons_ne_nil a []) hb (List.cons_ne_nil b []) (Or.inr htail)
  refine ⟨⟨_, _, _, _, htext, hdecimal⟩, ?_⟩
  have hscale : ((twoDigits x).exponent - ([b].length : ℤ)) =
      (twoDigits x).exponent + 1 - (twoDigits x).count := by
    rw [hcount, List.length_singleton]
    push_cast
    ring
  rw [read?_of_isDecimal htext hdecimal hexponent, List.singleton_append, hvalue, hscale,
    scale_eq_nearest hleast hgreatest]
  rfl

/-! ## Reading literals -/

/-- The literal that a text denotes: an integer, or else the double nearest to a decimal. -/
def readLiteral? (text : String) : Option Datum :=
  match text.toInt? with
  | some n => some (.int n)
  | none => (read? text).map .real

/-- The text of the literal keeps its value: it is an integer, a finite double that is written with
the shortest digits, or the double nearest to the two digits that it is written with. -/
def Legible : Datum → Prop
  | .int _ => True
  | .real x => x.isFinite = true ∧ (x.Plain ∨
      nearest x.isNegative (twoDigits x).quotient.1 (twoDigits x).quotient.2 = x)
  | _ => False

/-- The text of an integer is its sign and its digits. -/
theorem toList_literalText_int (n : ℤ) :
    (literalText (.int n)).toList = signOf (decide (n < 0)) ++ Nat.toDigits 10 n.natAbs := by
  show (toString n).toList = _
  rw [Int.toString_eq_repr]
  cases n with
  | ofNat m =>
    have hpos : ¬ Int.ofNat m < 0 := not_lt.mpr (Int.natCast_nonneg m)
    rw [decide_eq_false hpos]
    show m.repr.toList = Nat.toDigits 10 m
    rw [Nat.repr_eq_ofList_toDigits, String.toList_ofList]
  | negSucc m =>
    rw [decide_eq_true (Int.negSucc_lt_zero m)]
    show ("-" ++ (m + 1).repr).toList = '-' :: Nat.toDigits 10 (m + 1)
    simp only [String.toList_append, Nat.repr_eq_ofList_toDigits, String.toList_ofList]
    rfl

/-- The text of an integer is read as the integer. -/
theorem readLiteral?_int (n : ℤ) : readLiteral? (literalText (.int n)) = some (.int n) := by
  have htext : literalText (.int n) = n.repr := Int.toString_eq_repr
  unfold readLiteral?
  rw [htext, Int.toInt?_repr]

/-- The text of a real has a point, which the text of an integer has not. -/
theorem toInt?_eq_none {text : String} {negative : Bool} (h : IsRealText text negative) :
    text.toInt? = none := by
  obtain ⟨cs, whole, part, tail, htext, hdecimal⟩ := h
  have hpoint : '.' ∈ text.toList := by
    rw [htext, hdecimal.split]
    simp
  have hnat {s : String} {b : ℕ} (hs : s.toNat? = some b) : '.' ∉ s.toList := by
    intro hmem
    have hchars := (String.isNat_iff.mp (String.isNat_of_toNat?_eq_some hs)).2.1 '.' hmem
    revert hchars
    decide
  cases hint : text.toInt? with
  | none => rfl
  | some n =>
    rcases String.toInt?_eq_some_iff.mp hint with ⟨b, hb, -⟩ | ⟨t, rfl, b, hb, -⟩
    · exact absurd hpoint (hnat hb)
    · rw [String.toList_append, List.mem_append] at hpoint
      rcases hpoint with hpoint | hpoint
      · simp at hpoint
      · exact absurd hpoint (hnat hb)

/-- The text of a finite double is a numeral with its sign. -/
theorem isRealText_realText (hfinite : x.isFinite = true) :
    IsRealText (realText x) x.isNegative := by
  by_cases hplain : x.Plain
  · exact (read?_realText_of_plain hfinite hplain).1
  · exact (read?_realText_of_not_plain hfinite hplain).1

/-- A finite double is read back from its text if and only if the text keeps its value. -/
theorem readLiteral?_real_iff (hfinite : x.isFinite = true) :
    readLiteral? (literalText (.real x)) = some (.real x) ↔ Legible (.real x) := by
  have hread : readLiteral? (literalText (.real x)) = (read? (realText x)).map .real := by
    unfold readLiteral?
    rw [literalText, toInt?_eq_none (isRealText_realText hfinite)]
  rw [hread]
  unfold Legible
  by_cases hplain : x.Plain
  · rw [(read?_realText_of_plain hfinite hplain).2]
    simp [hfinite, hplain]
  · rw [(read?_realText_of_not_plain hfinite hplain).2]
    simp [hfinite, hplain]

/-- A legible literal is read as itself. -/
theorem readLiteral?_of_legible {d : Datum} (h : d.Legible) :
    readLiteral? d.literalText = some d := by
  cases d with
  | int n => exact readLiteral?_int n
  | real x => exact (readLiteral?_real_iff h.1).mpr h
  | text _ | truth _ | nothing | list _ | record _ => exact h.elim

/-- A legible literal starts with a sign or a digit. -/
theorem ne_parenthesized {d : Datum} (h : d.Legible) (s : String) :
    d.literalText ≠ "(" ++ s ++ ")" := by
  intro heq
  have hlist := congrArg String.toList heq
  have hfirst {negative : Bool} {cs : List Char} (hcs : ∀ c ∈ cs.head?, c.isDigit = true)
      (hne : cs ≠ []) : (signOf negative ++ cs).head? ≠ some '(' := by
    cases negative with
    | true => simp [signOf]
    | false =>
      obtain ⟨c, rest, rfl⟩ := List.exists_cons_of_ne_nil hne
      intro hhead
      have hdigit := hcs c rfl
      rw [Option.some.inj hhead] at hdigit
      cases hdigit
  have hparen : ("(" ++ s ++ ")").toList.head? = some '(' := by simp
  rw [← hlist] at hparen
  cases d with
  | int n =>
    rw [toList_literalText_int] at hparen
    refine hfirst (fun c hc => ?_) Nat.toDigits_ne_nil hparen
    exact areDigits_toDigits _ c (List.mem_of_mem_head? hc)
  | real x =>
    obtain ⟨cs, whole, part, tail, htext, hdecimal⟩ := isRealText_realText h.1
    rw [literalText, htext, hdecimal.split] at hparen
    refine hfirst (fun c hc => ?_) (by simp) hparen
    rw [List.head?_append_of_ne_nil _ hdecimal.before_ne] at hc
    exact hdecimal.before c (List.mem_of_mem_head? hc)
  | text _ | truth _ | nothing | list _ | record _ => exact h.elim

end Datum

/-! ## Literals inside of expressions -/

namespace Expr

open Outcome

/-- One level of an expression around a hole. -/
inductive Frame where
  | rangeStart (stop : Expr)
  | rangeStop (start : Expr)
  | index (name : Datum) (before after : List Expr)
  | negate
  | addLeft (right : Expr)
  | addRight (left : Expr)
  | subLeft (right : Expr)
  | subRight (left : Expr)
  | mulLeft (right : Expr)
  | mulRight (left : Expr)
  | divLeft (den : Expr)
  | divRight (num : Expr)
  | powLeft (exponent : Expr)
  | powRight (base : Expr)
  | call (func : Datum) (before after : List Expr)

namespace Frame

/-- The expression with the hole filled. -/
def fill : Frame → Expr → Expr
  | rangeStart stop, e => .range e stop
  | rangeStop start, e => .range start e
  | index name before after, e => .index name (before ++ e :: after)
  | negate, e => .negate e
  | addLeft right, e => .add e right
  | addRight left, e => .add left e
  | subLeft right, e => .sub e right
  | subRight left, e => .sub left e
  | mulLeft right, e => .mul e right
  | mulRight left, e => .mul left e
  | divLeft den, e => .div e den
  | divRight num, e => .div num e
  | powLeft exponent, e => .pow e exponent
  | powRight base, e => .pow base e
  | call func before after, e => .call func (before ++ e :: after)

/-- How strongly an expression binds does not depend on what fills a hole in it. -/
theorem precedence_fill (f : Frame) (e e' : Expr) :
    (f.fill e).precedence = (f.fill e').precedence := by
  cases f <;> rfl

end Frame

/-- The expression inside of several levels, the outermost one first. -/
def plug (frames : List Frame) (e : Expr) : Expr := frames.foldr Frame.fill e

/-- Two expressions have the same text, or the same text where one binding strength is required. -/
def SameText (e e' : Expr) : Prop :=
  ∃ s s', e.print = .ok s ∧ e'.print = .ok s' ∧
    (s = s' ∨ ∃ least w, e.parenthesized s least = .ok w ∧ e'.parenthesized s' least = .ok w)

/-- A list of expressions is printed in front of one of them, at it, and behind it. -/
theorem printAll_middle {before after : List Expr} {e : Expr} {texts : List String}
    (h : printAll (before ++ e :: after) = .ok texts) : ∃ front s back,
      printAll before = .ok front ∧ e.print = .ok s ∧ printAll after = .ok back ∧
        texts = front ++ s :: back := by
  induction before generalizing texts with
  | nil =>
    simp only [List.nil_append, printAll, bind_eq_ok, pure_eq_ok] at h
    obtain ⟨s, hs, back, hback, -, -, rfl⟩ := h
    exact ⟨[], s, back, rfl, hs, hback, rfl⟩
  | cons b before ih =>
    simp only [List.cons_append, printAll, bind_eq_ok, pure_eq_ok] at h
    obtain ⟨t, ht, texts, htexts, u, hu, rfl⟩ := h
    obtain ⟨front, s, back, hfront, hs, hback, rfl⟩ := ih htexts
    refine ⟨t :: front, s, back, ?_, hs, hback, rfl⟩
    simp [printAll, ht, hfront, hu]

/-- Lists that differ in one member have the same text only if the members have. -/
theorem sameText_of_intercalate {before after : List Expr} {e e' : Expr} {texts texts' : List String}
    (h : printAll (before ++ e :: after) = .ok texts)
    (h' : printAll (before ++ e' :: after) = .ok texts')
    (heq : ", ".intercalate texts = ", ".intercalate texts') : SameText e e' := by
  obtain ⟨front, s, back, hfront, hs, hback, rfl⟩ := printAll_middle h
  obtain ⟨front', s', back', hfront', hs', hback', rfl⟩ := printAll_middle h'
  obtain rfl := Except.ok.inj (hfront.symm.trans hfront')
  obtain rfl := Except.ok.inj (hback.symm.trans hback')
  exact ⟨s, s', hs, hs', Or.inl (intercalate_middle heq)⟩

/-- If the texts around two fillings are the same, so are the texts of the fillings. -/
theorem Frame.sameText {f : Frame} {e e' : Expr} {t : String} (h : (f.fill e).print = .ok t)
    (h' : (f.fill e').print = .ok t) : SameText e e' := by
  cases f with
  | rangeStart stop =>
    simp only [fill, print, bind_eq_ok, pure_eq_ok] at h h'
    obtain ⟨s, hs, r, hr, rfl⟩ := h
    obtain ⟨s', hs', r', hr', heq⟩ := h'
    obtain rfl := Except.ok.inj (hr.symm.trans hr')
    rw [String.append_left_inj, String.append_left_inj] at heq
    exact ⟨s, s', hs, hs', Or.inl heq.symm⟩
  | rangeStop start =>
    simp only [fill, print, bind_eq_ok, pure_eq_ok] at h h'
    obtain ⟨l, hl, s, hs, rfl⟩ := h
    obtain ⟨l', hl', s', hs', heq⟩ := h'
    obtain rfl := Except.ok.inj (hl.symm.trans hl')
    rw [String.append_right_inj] at heq
    exact ⟨s, s', hs, hs', Or.inl heq.symm⟩
  | index name before after =>
    simp only [fill, print, bind_eq_ok, pure_eq_ok] at h h'
    obtain ⟨texts, htexts, rfl⟩ := h
    obtain ⟨texts', htexts', heq⟩ := h'
    rw [String.append_left_inj, String.append_right_inj] at heq
    exact sameText_of_intercalate htexts htexts' heq.symm
  | call func before after =>
    simp only [fill, print, bind_eq_ok, pure_eq_ok] at h h'
    obtain ⟨texts, htexts, rfl⟩ := h
    obtain ⟨texts', htexts', heq⟩ := h'
    rw [String.append_left_inj, String.append_right_inj] at heq
    exact sameText_of_intercalate htexts htexts' heq.symm
  | negate =>
    simp only [fill, print, bind_eq_ok, pure_eq_ok] at h h'
    obtain ⟨s, hs, w, hw, rfl⟩ := h
    obtain ⟨s', hs', w', hw', heq⟩ := h'
    rw [String.append_right_inj] at heq
    exact ⟨s, s', hs, hs', Or.inr ⟨4, w, hw, heq ▸ hw'⟩⟩
  -- What stands beside the hole has the same text in both, and is cut off.
  | addLeft right | subLeft right | mulLeft right | divLeft right | powLeft right =>
    simp only [fill, print, bind_eq_ok, pure_eq_ok] at h h'
    obtain ⟨s, hs, w, hw, q, hq, r, hr, rfl⟩ := h
    obtain ⟨s', hs', w', hw', q', hq', r', hr', heq⟩ := h'
    obtain rfl := Except.ok.inj (hq.symm.trans hq')
    obtain rfl := Except.ok.inj (hr.symm.trans hr')
    rw [String.append_left_inj, String.append_left_inj] at heq
    exact ⟨s, s', hs, hs', Or.inr ⟨_, w, hw, heq ▸ hw'⟩⟩
  | addRight left | subRight left | mulRight left | divRight left | powRight left =>
    simp only [fill, print, bind_eq_ok, pure_eq_ok] at h h'
    obtain ⟨q, hq, l, hl, s, hs, w, hw, rfl⟩ := h
    obtain ⟨q', hq', l', hl', s', hs', w', hw', heq⟩ := h'
    obtain rfl := Except.ok.inj (hq.symm.trans hq')
    obtain rfl := Except.ok.inj (hl.symm.trans hl')
    rw [String.append_right_inj] at heq
    exact ⟨s, s', hs, hs', Or.inr ⟨_, w, hw, heq ▸ hw'⟩⟩

/-- A text is put in parentheses if its operator binds less tightly. -/
theorem parenthesized_eq_ok {e : Expr} {s w : String} {least : Nat}
    (h : e.parenthesized s least = .ok w) : ∃ p, e.precedence = .ok p ∧
      w = if p < least then "(" ++ s ++ ")" else s := by
  unfold parenthesized at h
  rw [bind_eq_ok] at h
  obtain ⟨p, hp, h⟩ := h
  refine ⟨p, hp, ?_⟩
  split at h
  · next hlt =>
    cases h
    rw [if_pos hlt]
  · next hlt =>
    cases h
    rw [if_neg hlt]

/-- Expressions that bind alike have the same text already. -/
theorem SameText.of_precedence {e e' : Expr} (h : SameText e e')
    (hprecedence : e.precedence = e'.precedence) :
    ∃ s, e.print = .ok s ∧ e'.print = .ok s := by
  obtain ⟨s, s', hs, hs', rfl | ⟨least, w, hw, hw'⟩⟩ := h
  · exact ⟨s, hs, hs'⟩
  · obtain ⟨p, hp, rfl⟩ := parenthesized_eq_ok hw
    obtain ⟨p', hp', heq⟩ := parenthesized_eq_ok hw'
    rw [hprecedence, hp', Except.ok.injEq] at hp
    subst hp
    have hsame : s = s' := by
      split at heq
      · rwa [String.append_left_inj, String.append_right_inj] at heq
      · exact heq
    exact ⟨s, hs, hsame ▸ hs'⟩

/-- Legible literals with the same text in one place are the same. -/
theorem SameText.eq_of_legible {d d' : Datum} (h : SameText (.literal d) (.literal d'))
    (hd : d.Legible) (hd' : d'.Legible) : d = d' := by
  have hinj (heq : d.literalText = d'.literalText) : d = d' := by
    have hread := Datum.readLiteral?_of_legible hd
    rw [heq, Datum.readLiteral?_of_legible hd'] at hread
    exact (Option.some.inj hread).symm
  obtain ⟨s, s', hs, hs', heq⟩ := h
  cases hs
  cases hs'
  rcases heq with heq | ⟨least, w, hw, hw'⟩
  · exact hinj heq
  · obtain ⟨p, hp, rfl⟩ := parenthesized_eq_ok hw
    obtain ⟨p', hp', heq⟩ := parenthesized_eq_ok hw'
    split at heq <;> split at heq
    · rw [String.append_left_inj, String.append_right_inj] at heq
      exact hinj heq
    · exact absurd heq.symm (Datum.ne_parenthesized hd' _)
    · exact absurd heq (Datum.ne_parenthesized hd _)
    · exact hinj heq

/-- Expressions that differ in one legible literal only have different texts. -/
theorem literal_eq_of_print {frames : List Frame} {d d' : Datum} (hd : d.Legible)
    (hd' : d'.Legible) {t : String} (h : (plug frames (.literal d)).print = .ok t)
    (h' : (plug frames (.literal d')).print = .ok t) : d = d' := by
  have hsame : SameText (.literal d) (.literal d') := by
    induction frames generalizing t with
    | nil => exact ⟨t, t, h, h', Or.inl rfl⟩
    | cons f frames ih =>
      have hinner := Frame.sameText h h'
      cases frames with
      | nil => exact hinner
      | cons g frames =>
        obtain ⟨s, hs, hs'⟩ := hinner.of_precedence (g.precedence_fill _ _)
        exact ih hs hs'
  exact hsame.eq_of_legible hd hd'

end Expr

/-- What the texts of numbers keep. An integer is always read back. A finite double is read back if
and only if it is zero, if its magnitude is from `1e-3` up to `1e5`, or if it is the double nearest
to its first two digits. Expressions that differ in one such number only have different texts. -/
theorem literal_texts (n : ℤ) {x : Double} (hfinite : x.isFinite = true) :
    Datum.readLiteral? (Datum.literalText (.int n)) = some (.int n) ∧
    (Datum.readLiteral? (Datum.literalText (.real x)) = some (.real x) ↔ x.Plain ∨
      Double.nearest x.isNegative (Datum.twoDigits x).quotient.1 (Datum.twoDigits x).quotient.2 =
        x) ∧
    ∀ (frames : List Expr.Frame) (d d' : Datum) (text : String), d.Legible → d'.Legible →
      (Expr.plug frames (.literal d)).print = .ok text →
      (Expr.plug frames (.literal d')).print = .ok text → d = d' := by
  refine ⟨Datum.readLiteral?_int n, ?_, fun frames d d' text hd hd' h h' =>
    Expr.literal_eq_of_print hd hd' h h'⟩
  rw [Datum.readLiteral?_real_iff hfinite]
  exact and_iff_right hfinite

/-- The double `1e-6` is written as `1.0E-6` and read back, and `a + 1.0E-6` is the text of no other
sum of `a` and an integer. -/
theorem literal_texts_small : ∃ x : Double, x.isFinite = true ∧
    Datum.readLiteral? (Datum.literalText (.real x)) = some (.real x) ∧
    ∀ n : ℤ, (Expr.add (.var (.text "a")) (.literal (.real x))).print = .ok "a + 1.0E-6" ∧
      (Expr.add (.var (.text "a")) (.literal (.int n))).print ≠ .ok "a + 1.0E-6" := by
  have hfinite : Double.isFinite ⟨0x3eb0c6f7a0b5ed8d⟩ = true := by decide
  have hnear : Double.nearest (Double.isNegative ⟨0x3eb0c6f7a0b5ed8d⟩)
      (Datum.twoDigits ⟨0x3eb0c6f7a0b5ed8d⟩).quotient.1
      (Datum.twoDigits ⟨0x3eb0c6f7a0b5ed8d⟩).quotient.2 = ⟨0x3eb0c6f7a0b5ed8d⟩ := by
    decide +kernel
  have hprint : (Expr.add (.var (.text "a")) (.literal (.real ⟨0x3eb0c6f7a0b5ed8d⟩))).print =
      .ok "a + 1.0E-6" := by
    decide +kernel
  obtain ⟨-, hreal, hexpr⟩ := literal_texts 0 hfinite
  refine ⟨_, hfinite, hreal.mpr (Or.inr hnear), fun n => ⟨hprint, fun hn => ?_⟩⟩
  have heq := hexpr [.addRight (.var (.text "a"))] (.real ⟨0x3eb0c6f7a0b5ed8d⟩) (.int n) _
    ⟨hfinite, Or.inr hnear⟩ trivial hprint hn
  cases heq

/-- The doubles `123456` and `120000` have one text, which is read back as the second of them. -/
theorem literal_texts_lossy :
    Double.isFinite ⟨0x40fe240000000000⟩ = true ∧
    (Expr.literal (.real ⟨0x40fe240000000000⟩)).print = .ok "1.2E5" ∧
    (Expr.literal (.real ⟨0x40fd4c0000000000⟩)).print = .ok "1.2E5" ∧
    Datum.readLiteral? (Datum.literalText (.real ⟨0x40fe240000000000⟩)) ≠
      some (.real ⟨0x40fe240000000000⟩) := by
  have hfinite : Double.isFinite ⟨0x40fe240000000000⟩ = true := by decide
  refine ⟨hfinite, by decide +kernel, by decide +kernel, ?_⟩
  rw [ne_eq, Datum.readLiteral?_real_iff hfinite]
  rintro ⟨-, (hzero | ⟨-, hlarge⟩) | hnear⟩
  · revert hzero
    decide
  · revert hlarge
    decide
  · revert hnear
    decide +kernel

end BayesGraph
