import BayesGraph.Numeral
import BayesGraph.Proofs.DecimalDigits

/-!
# Reading numerals

What `Numeral.read?` makes of a text that consists of a sign, digits, a point, digits and an
exponent: the digits are one natural number, which the exponent and the place of the point scale. If
that number rounds to a double, the text denotes the double.
-/

set_option autoImplicit false

namespace BayesGraph.Numeral

/-! ## Digits -/

/-- A run of digits ends here. -/
def Ends (rest : List Char) : Prop := ∀ c ∈ rest.head?, c.isDigit = false ∧ c ≠ '_'

/-- All characters are digits. -/
def AreDigits (cs : List Char) : Prop := ∀ c ∈ cs, c.isDigit = true

/-- A digit is no underscore. -/
theorem ne_underscore {c : Char} (h : c.isDigit = true) : c ≠ '_' := by
  rintro rfl
  cases h

/-- Where no digit follows, no digits are taken. -/
theorem takeDigits_of_ends {rest : List Char} (h : Ends rest) : takeDigits rest = ([], rest) := by
  cases rest with
  | nil => rfl
  | cons c tail =>
    obtain ⟨hdigit, hunderscore⟩ := h c rfl
    have hnone : digit? c = none := by simp [digit?, hdigit]
    unfold takeDigits
    split
    · next heq => cases heq
    · next heq =>
      cases heq
      simp [hnone]
    · next heq =>
      cases heq
      simp [hnone]

/-- A digit is taken in front of the others. -/
theorem takeDigits_cons {c : Char} {rest : List Char} (hc : c.isDigit = true)
    (hrest : rest.head? ≠ some '_') :
    takeDigits (c :: rest) = ((c.toNat - 48) :: (takeDigits rest).1, (takeDigits rest).2) := by
  have hsome : digit? c = some (c.toNat - 48) := by simp [digit?, hc]
  rw [takeDigits]
  · rw [hsome]
  · rintro d tail rfl
    exact hrest rfl

/-- A run of digits is taken as a whole. -/
theorem takeDigits_append {ds rest : List Char} (hds : AreDigits ds) (hrest : Ends rest) :
    takeDigits (ds ++ rest) = (ds.map fun c => c.toNat - 48, rest) := by
  induction ds with
  | nil => exact takeDigits_of_ends hrest
  | cons c ds ih =>
    obtain ⟨hc, hds⟩ := List.forall_mem_cons.mp hds
    have hnext : (ds ++ rest).head? ≠ some '_' := by
      cases ds with
      | nil =>
        intro hhead
        exact (hrest '_' hhead).2 rfl
      | cons d ds =>
        intro hhead
        exact ne_underscore (hds d List.mem_cons_self) (Option.some.inj hhead)
    rw [List.cons_append, takeDigits_cons hc hnext, ih hds]
    rfl

/-- The number that digits make up. -/
theorem ofDigits_map (ds : List Char) :
    ofDigits (ds.map fun c => c.toNat - 48) = Nat.ofDigitChars 10 ds 0 := by
  rw [ofDigits, List.foldl_map, Nat.ofDigitChars_eq_foldl]
  rfl

/-- The decimal digits of a number are digits. -/
theorem areDigits_toDigits (n : Nat) : AreDigits (Nat.toDigits 10 n) :=
  fun _ hc => Nat.isDigit_of_mem_toDigits (by decide) (by decide) hc

/-! ## Scaling -/

/-- Digits and an exponent give the double nearest to their number, if it is within the range of
doubles. -/
theorem scale_eq_nearest {digits : Nat} {e : ℤ} (hlow : (10 : ℝ) ^ (-331 : ℤ) ≤ digits * 10 ^ e)
    (hhigh : (digits * 10 ^ e : ℝ) < 10 ^ (310 : ℤ)) (negative : Bool) :
    scale negative digits e =
      Double.nearest negative (digits * Nat.pow 10 e.toNat) (Nat.pow 10 (-e).toNat) := by
  have hpos : 0 < digits := by
    rcases Nat.eq_zero_or_pos digits with rfl | hpos
    · have hleast : (0 : ℝ) < 10 ^ (-331 : ℤ) := by positivity
      rw [Nat.cast_zero, zero_mul] at hlow
      linarith
    · exact hpos
  have hlength := Nat.length_toDigits_pos (b := 10) (n := digits)
  obtain ⟨hlower, hupper⟩ := Decimal.toDigits_bounds hpos
  unfold scale
  dsimp only
  generalize (Nat.toDigits 10 digits).length = length at hlength hlower hupper ⊢
  have hlower' : (10 : ℝ) ^ (length - 1) ≤ digits := by exact_mod_cast hlower
  have hupper' : (digits : ℝ) < 10 ^ length := by exact_mod_cast hupper
  have hunit : (0 : ℝ) < 10 ^ e := by positivity
  have hbelow : (10 : ℝ) ^ (-331 : ℤ) < 10 ^ (length + e) := by
    rw [zpow_add₀ (by norm_num), zpow_natCast]
    exact hlow.trans_lt (mul_lt_mul_of_pos_right hupper' hunit)
  have habove : (10 : ℝ) ^ (((length - 1 : ℕ) : ℤ) + e) < 10 ^ (310 : ℤ) := by
    rw [zpow_add₀ (by norm_num), zpow_natCast]
    exact (mul_le_mul_of_nonneg_right hlower' hunit.le).trans_lt hhigh
  have hbelow' := (zpow_lt_zpow_iff_right₀ (by norm_num)).mp hbelow
  have habove' := (zpow_lt_zpow_iff_right₀ (by norm_num)).mp habove
  have hsmall : ¬ (decide (digits = 0) || decide ((length : ℤ) + e < -330)) = true := by
    simp only [Bool.or_eq_true, decide_eq_true_eq, not_or, not_lt]
    omega
  rw [if_neg hsmall, if_neg (by omega)]

/-- A scaled number is rounded to the double that it rounds to, if it is in the range of doubles. -/
theorem scale_of_rounds {x : Double} (hfinite : x.isFinite = true) {digits : Nat} {e : ℤ}
    (hrounds : Decimal.Rounds x (digits * 10 ^ e)) (hlow : (10 : ℝ) ^ (-331 : ℤ) ≤ digits * 10 ^ e)
    (hhigh : (digits * 10 ^ e : ℝ) < 10 ^ (310 : ℤ)) : scale x.isNegative digits e = x := by
  rw [scale_eq_nearest hlow hhigh]
  refine Decimal.nearest_of_rounds hfinite (Nat.pow_pos (by decide)) ?_
  rw [Decimal.scaled_quotient]
  exact hrounds

/-! ## Texts -/

/-- No character that a numeral is made of is blank. -/
theorem trim_of_forall {s : List Char} (h : ∀ c ∈ s, Text.isBlank c = false) : Text.trim s = s := by
  have hdrop {t : List Char} (ht : ∀ c ∈ t, Text.isBlank c = false) :
      t.dropWhile Text.isBlank = t := by
    cases t with
    | nil => rfl
    | cons c t => rw [List.dropWhile_cons_of_neg (by simp [ht c List.mem_cons_self])]
  unfold Text.trim
  rw [hdrop h, hdrop (by simpa using h), List.reverse_reverse]

/-- The characters of a numeral. -/
def isNumeralChar (c : Char) : Bool := c.isDigit || c == '.' || c == 'E' || c == '+' || c == '-'

/-- The codes of digits. -/
theorem toNat_of_isDigit {c : Char} (h : c.isDigit = true) : 48 ≤ c.toNat ∧ c.toNat ≤ 57 := by
  rw [Char.isDigit, Bool.and_eq_true, decide_eq_true_iff, decide_eq_true_iff] at h
  exact ⟨h.1, h.2⟩

/-- A character of numerals is no blank. -/
theorem isBlank_of_isNumeralChar {c : Char} (h : isNumeralChar c = true) :
    Text.isBlank c = false := by
  have hcases : c.isDigit = true ∨ c ∈ ['.', 'E', '+', '-'] := by
    simpa [isNumeralChar, or_assoc] using h
  rcases hcases with hdigit | hother
  · have hrange := toNat_of_isDigit hdigit
    simp only [Text.isBlank, Bool.or_eq_false_iff, Bool.and_eq_false_iff, decide_eq_false_iff_not,
      beq_eq_false_iff_ne]
    omega
  · simp only [List.mem_cons, List.not_mem_nil, or_false] at hother
    rcases hother with rfl | rfl | rfl | rfl <;> rfl

/-- A sign in front of a numeral. -/
def signOf (negative : Bool) : List Char := if negative then ['-'] else []

/-- In front of a digit the sign is taken as it was written. -/
theorem takeSign_of_digit (negative : Bool) {c : Char} (hc : c.isDigit = true) (rest : List Char) :
    takeSign (signOf negative ++ c :: rest) = (negative, c :: rest) := by
  cases negative with
  | true => rfl
  | false =>
    show takeSign (c :: rest) = _
    unfold takeSign
    split
    · next heq =>
      cases heq
      cases hc
    · next heq =>
      cases heq
      cases hc
    · rfl

/-- A text with a sign and a digit after it is a decimal numeral. -/
theorem read?_of_digit {text : String} {negative : Bool} {c : Char} {rest : List Char}
    (htext : text.toList = signOf negative ++ c :: rest) (hc : c.isDigit = true)
    (hrest : ∀ b ∈ rest, isNumeralChar b = true) :
    read? text = decimal? negative (c :: rest) := by
  have hblank : ∀ b ∈ text.toList, Text.isBlank b = false := by
    intro b hb
    apply isBlank_of_isNumeralChar
    rw [htext, List.mem_append, List.mem_cons] at hb
    rcases hb with hb | rfl | hb
    · cases negative with
      | true =>
        rw [List.mem_singleton.mp hb]
        rfl
      | false => cases hb
    · simp [isNumeralChar, hc]
    · exact hrest b hb
  have hlower : c.toLower = c := by
    have hrange := toNat_of_isDigit hc
    unfold Char.toLower
    rw [dif_neg]
    rintro ⟨hupper, -⟩
    have hupper' : 65 ≤ c.toNat := UInt32.le_iff_toNat_le.mp hupper
    omega
  have hname (name : String) (hfirst : ∀ d ∈ name.toList.head?, d.isDigit = false) :
      String.ofList ((c :: rest).map Char.toLower) ≠ name := by
    rintro rfl
    rw [String.toList_ofList, List.map_cons, List.head?_cons, hlower] at hfirst
    have hnot := hfirst c rfl
    rw [hc] at hnot
    cases hnot
  unfold read?
  rw [trim_of_forall hblank, htext, takeSign_of_digit negative hc]
  dsimp only
  rw [if_neg, if_neg (hname "nan" (by simp))]
  rw [Bool.or_eq_true, decide_eq_true_eq, decide_eq_true_eq]
  rintro (h | h)
  · exact hname "inf" (by simp) h
  · exact hname "infinity" (by simp) h

/-- Digits, a point, digits and an exponent. -/
theorem decimal?_of_digits {whole part tail : List Char} {e : ℤ} (hwhole : AreDigits whole)
    (hpart : AreDigits part) (hne : whole ≠ []) (htail : Ends tail)
    (hexponent : exponent? tail = some e) (negative : Bool) :
    decimal? negative (whole ++ '.' :: (part ++ tail)) =
      some (scale negative (Nat.ofDigitChars 10 (whole ++ part) 0) (e - part.length)) := by
  have hpoint : Ends ('.' :: (part ++ tail)) := by
    intro c hc
    cases hc
    exact ⟨rfl, by decide⟩
  have hsome : (whole.map fun c => c.toNat - 48).isEmpty = false := by
    cases whole with
    | nil => exact absurd rfl hne
    | cons c whole => rfl
  unfold decimal?
  rw [takeDigits_append hwhole hpoint]
  simp only [takeDigits_append hpart htail, hsome, hexponent, Bool.false_and, Option.map_some,
    ← List.map_append, ofDigits_map, List.length_map]
  rfl

/-- Digits are characters of numerals. -/
theorem isNumeralChar_of_areDigits {ds : List Char} (h : AreDigits ds) :
    ∀ c ∈ ds, isNumeralChar c = true := by
  intro c hc
  simp [isNumeralChar, h c hc]

/-- A mark, perhaps a sign, and digits. -/
def IsExponent (cs : List Char) : Prop := ∃ sign ds,
  cs = 'E' :: (sign ++ ds) ∧ sign ∈ [[], ['+'], ['-']] ∧ AreDigits ds ∧ ds ≠ []

/-- Digits, a point, digits and perhaps an exponent. -/
structure IsDecimal (cs whole part tail : List Char) : Prop where
  split : cs = whole ++ '.' :: (part ++ tail)
  before : AreDigits whole
  before_ne : whole ≠ []
  behind : AreDigits part
  behind_ne : part ≠ []
  exponent : tail = [] ∨ IsExponent tail

/-- A sign and a decimal numeral. -/
def IsRealText (text : String) (negative : Bool) : Prop :=
  ∃ cs whole part tail, text.toList = signOf negative ++ cs ∧ IsDecimal cs whole part tail

/-- An exponent is written with characters of numerals. -/
theorem IsExponent.isNumeralChar {cs : List Char} (h : IsExponent cs) :
    ∀ c ∈ cs, isNumeralChar c = true := by
  obtain ⟨sign, ds, rfl, hsign, hds, -⟩ := h
  refine List.forall_mem_cons.mpr ⟨rfl, fun c hc => ?_⟩
  rcases List.mem_append.mp hc with hc | hc
  · simp only [List.mem_cons, List.not_mem_nil, or_false] at hsign
    rcases hsign with rfl | rfl | rfl
    · cases hc
    · rw [List.mem_singleton.mp hc]
      rfl
    · rw [List.mem_singleton.mp hc]
      rfl
  · exact isNumeralChar_of_areDigits hds c hc

/-- A decimal is written with characters of numerals. -/
theorem IsDecimal.isNumeralChar {cs whole part tail : List Char} (h : IsDecimal cs whole part tail) :
    ∀ c ∈ cs, isNumeralChar c = true := by
  obtain ⟨rfl, hwhole, -, hpart, -, htail⟩ := h
  have hexponent : ∀ c ∈ tail, Numeral.isNumeralChar c = true := by
    rcases htail with rfl | htail
    · simp
    · exact htail.isNumeralChar
  have hbehind := List.forall_mem_append.mpr ⟨isNumeralChar_of_areDigits hpart, hexponent⟩
  exact List.forall_mem_append.mpr
    ⟨isNumeralChar_of_areDigits hwhole, List.forall_mem_cons.mpr ⟨rfl, hbehind⟩⟩

/-- The digits end where the tail of a numeral begins. -/
theorem ends_of_tail {tail : List Char} (h : tail = [] ∨ IsExponent tail) : Ends tail := by
  intro c hc
  rcases h with rfl | ⟨sign, ds, rfl, -⟩
  · cases hc
  · cases hc
    exact ⟨rfl, by decide⟩

/-- The double that a decimal numeral denotes. -/
theorem read?_of_isDecimal {text : String} {negative : Bool} {cs whole part tail : List Char} {e : ℤ}
    (htext : text.toList = signOf negative ++ cs) (h : IsDecimal cs whole part tail)
    (hexponent : exponent? tail = some e) : read? text =
      some (scale negative (Nat.ofDigitChars 10 (whole ++ part) 0) (e - part.length)) := by
  have hchars := h.isNumeralChar
  obtain ⟨rfl, hwhole, hne, hpart, -, htail⟩ := h
  rw [← decimal?_of_digits hwhole hpart hne (ends_of_tail htail) hexponent]
  obtain ⟨c, rest, rfl⟩ := List.exists_cons_of_ne_nil hne
  exact read?_of_digit htext (hwhole c List.mem_cons_self)
    fun b hb => hchars b (List.mem_cons_of_mem c hb)

/-! ## Positional notation -/

/-- The digits of a decimal. -/
theorem toList_digitText (d : Decimal) : d.digitText.toList = Nat.toDigits 10 d.digits := by
  rw [Decimal.digitText, Nat.toString_eq_ofList_toDigits, String.toList_ofList]

/-- Digits behind digits are digits. -/
theorem areDigits_append {cs ds : List Char} (hcs : AreDigits cs) (hds : AreDigits ds) :
    AreDigits (cs ++ ds) := by
  intro c hc
  rcases List.mem_append.mp hc with hc | hc
  · exact hcs c hc
  · exact hds c hc

/-- Zeros are digits. -/
theorem areDigits_zeros (n : Nat) : AreDigits (List.replicate n '0') := by
  intro c hc
  rw [List.eq_of_mem_replicate hc]
  rfl

/-- The digits before and behind the point make up the decimal. -/
inductive SpelledBy (d : Decimal) (cs : List Char) : Prop where
  | mk (whole part : List Char) (hdecimal : IsDecimal cs whole part [])
    (hvalue : (Nat.ofDigitChars 10 (whole ++ part) 0 : ℝ) * 10 ^ (-(part.length : ℤ)) = d.value)

section Positional

variable {d : Decimal} {ds : List Char} {k : Nat} (hlength : ds.length = d.count)
  (hdigits : AreDigits ds) (hvalue : Nat.ofDigitChars 10 ds 0 = d.digits)

include hlength hdigits hvalue

/-- Below one, zeros stand between the point and the digits. -/
theorem spelledBy_leadingZeros (hcount : 0 < d.count) (hk : -d.exponent - 1 = k) :
    SpelledBy d ('0' :: '.' :: (List.replicate k '0' ++ ds)) := by
  refine ⟨['0'], List.replicate k '0' ++ ds, ⟨?_, areDigits_zeros 1, List.cons_ne_nil _ _,
    areDigits_append (areDigits_zeros k) hdigits, ?_, Or.inl rfl⟩, ?_⟩
  · rw [List.append_nil]
    rfl
  · rw [← List.length_pos_iff, List.length_append, hlength]
    exact Nat.add_pos_right _ hcount
  · have hnumber : Nat.ofDigitChars 10 (['0'] ++ (List.replicate k '0' ++ ds)) 0 = d.digits := by
      rw [← List.append_assoc, ← List.replicate_one, List.replicate_append_replicate,
        Nat.ofDigitChars_append, Nat.ofDigitChars_replicate_zero, Nat.mul_zero, hvalue]
    rw [hnumber, List.length_append, List.length_replicate, hlength, Decimal.value]
    congr 2
    push_cast
    omega

/-- All digits stand before the point, and zeros fill up the rest. -/
theorem spelledBy_trailingZeros (hk : d.exponent = k) (hwhole : ds.length ≤ k + 1) :
    SpelledBy d (ds ++ (List.replicate (k + 1 - ds.length) '0' ++ ['.', '0'])) := by
  refine ⟨ds ++ List.replicate (k + 1 - ds.length) '0', ['0'], ⟨?_,
    areDigits_append hdigits (areDigits_zeros _), ?_, areDigits_zeros 1, List.cons_ne_nil _ _,
    Or.inl rfl⟩, ?_⟩
  · rw [List.append_nil, List.append_assoc]
  · rw [← List.length_pos_iff, List.length_append, List.length_replicate]
    omega
  · have hnumber : Nat.ofDigitChars 10
        (ds ++ List.replicate (k + 1 - ds.length) '0' ++ ['0']) 0 =
        10 ^ (k + 2 - d.count) * d.digits := by
      rw [List.append_assoc, ← List.replicate_one, List.replicate_append_replicate,
        Nat.ofDigitChars_append, hvalue, Nat.ofDigitChars_replicate_zero, hlength]
      congr 2
      omega
    rw [hnumber, Decimal.value, hk]
    push_cast
    rw [mul_right_comm, mul_comm, ← zpow_natCast, ← zpow_add₀ (by norm_num)]
    congr 2
    simp only [List.length_singleton]
    omega

/-- The point stands between two digits. -/
theorem spelledBy_split (hk : d.exponent = k) (hrest : k + 1 < ds.length) :
    SpelledBy d (ds.take (k + 1) ++ '.' :: ds.drop (k + 1)) := by
  refine ⟨ds.take (k + 1), ds.drop (k + 1), ⟨?_, fun c hc => hdigits c (List.mem_of_mem_take hc),
    ?_, fun c hc => hdigits c (List.mem_of_mem_drop hc), ?_, Or.inl rfl⟩, ?_⟩
  · rw [List.append_nil]
  · rw [← List.length_pos_iff, List.length_take]
    omega
  · rw [← List.length_pos_iff, List.length_drop]
    omega
  · rw [List.take_append_drop, hvalue, Decimal.value, List.length_drop, hlength, hk]
    congr 2
    omega

end Positional

/-- A decimal is spelled by its text without exponent. -/
theorem spelledBy_positional {d : Decimal} (h : d.Proper) :
    SpelledBy d (Double.positional d).toList := by
  have hlength : (Nat.toDigits 10 d.digits).length = d.count :=
    Decimal.length_toDigits_eq h.1 h.2.1 h.2.2
  have hdigits := areDigits_toDigits d.digits
  have hvalue := Nat.ofDigitChars_ten_toDigits (n := d.digits)
  unfold Double.positional
  rw [toList_digitText]
  generalize Nat.toDigits 10 d.digits = ds at hlength hdigits hvalue ⊢
  dsimp only
  by_cases hneg : d.exponent < 0
  · obtain ⟨k, hk⟩ := Int.eq_ofNat_of_zero_le (show 0 ≤ -d.exponent - 1 by omega)
    rw [if_pos hneg, hk, Int.toNat_natCast]
    simp only [String.toList_append, String.toList_ofList]
    exact spelledBy_leadingZeros hlength hdigits hvalue h.1 hk
  · obtain ⟨k, hk⟩ := Int.eq_ofNat_of_zero_le (not_lt.mp hneg)
    rw [if_neg hneg, hk, Int.toNat_natCast]
    by_cases hwhole : ds.length ≤ k + 1
    · have hpadded : (ds ++ List.replicate (k + 1 - ds.length) '0').length = k + 1 := by
        rw [List.length_append, List.length_replicate]
        omega
      rw [List.take_of_length_le hpadded.le, List.drop_of_length_le hpadded.le, List.isEmpty_nil,
        if_pos rfl]
      simp only [String.toList_append, String.toList_ofList, List.append_assoc]
      exact spelledBy_trailingZeros hlength hdigits hvalue hk hwhole
    · have hnone : k + 1 - ds.length = 0 := by omega
      have hrest : (ds.drop (k + 1)).isEmpty = false := by
        rw [Bool.eq_false_iff, ne_eq, List.isEmpty_iff_length_eq_zero, List.length_drop]
        omega
      rw [hnone, List.replicate_zero, List.append_nil, hrest, if_neg Bool.false_ne_true]
      simp only [String.toList_append, String.toList_ofList, List.append_assoc]
      exact spelledBy_split hlength hdigits hvalue hk (not_le.mp hwhole)

/-! ## Scientific notation -/

/-- The text of an exponent is a sign and at least two digits. -/
theorem exponentText_eq (e : ℤ) : ∃ ds, (Double.exponentText e).toList =
    (if e < 0 then '-' else '+') :: ds ∧ AreDigits ds ∧ 2 ≤ ds.length ∧
      Nat.ofDigitChars 10 ds 0 = e.natAbs := by
  have hpos := Nat.length_toDigits_pos (b := 10) (n := e.natAbs)
  have hdigits := areDigits_toDigits e.natAbs
  have hvalue := Nat.ofDigitChars_ten_toDigits (n := e.natAbs)
  have htext : (toString e.natAbs).toList = Nat.toDigits 10 e.natAbs := by
    rw [Nat.toString_eq_ofList_toDigits, String.toList_ofList]
  have hlength : (toString e.natAbs).length = (Nat.toDigits 10 e.natAbs).length := by
    rw [← String.length_toList, htext]
  unfold Double.exponentText
  dsimp only
  rw [hlength]
  have hsign : (if e < 0 then "-" else "+").toList = [if e < 0 then '-' else '+'] := by
    split <;> rfl
  by_cases hshort : (Nat.toDigits 10 e.natAbs).length < 2
  · rw [if_pos hshort, String.toList_append, String.toList_append, hsign, htext]
    refine ⟨'0' :: Nat.toDigits 10 e.natAbs, rfl, ?_, ?_, ?_⟩
    · exact List.forall_mem_cons.mpr ⟨rfl, hdigits⟩
    · rw [List.length_cons]
      omega
    · rw [Nat.ofDigitChars_cons]
      exact hvalue
  · rw [if_neg hshort, String.toList_append, hsign, htext]
    exact ⟨Nat.toDigits 10 e.natAbs, rfl, hdigits, not_lt.mp hshort, hvalue⟩

/-- A minus is taken as the sign. -/
theorem takeSign_minus (cs : List Char) : takeSign ('-' :: cs) = (true, cs) := rfl

/-- A plus is taken as no sign. -/
theorem takeSign_plus (cs : List Char) : takeSign ('+' :: cs) = (false, cs) := rfl

/-- In front of digits there is no sign. -/
theorem takeSign_of_areDigits {ds : List Char} (h : AreDigits ds) : takeSign ds = (false, ds) := by
  cases ds with
  | nil => rfl
  | cons c ds => exact takeSign_of_digit false (h c List.mem_cons_self) ds

/-- An exponent after its mark. -/
theorem exponent?_of_digits {rest ds : List Char} {negative : Bool}
    (hsign : takeSign rest = (negative, ds)) (hds : AreDigits ds) (hne : ds ≠ []) :
    exponent? ('E' :: rest) = some (if negative then -(Nat.ofDigitChars 10 ds 0 : ℤ)
      else Nat.ofDigitChars 10 ds 0) := by
  have hends : Ends [] := by
    intro c hc
    cases hc
  have htake := takeDigits_append hds hends
  rw [List.append_nil] at htake
  obtain ⟨n, ns, hns⟩ : ∃ n ns, (ds.map fun c => c.toNat - 48) = n :: ns := by
    cases ds with
    | nil => exact absurd rfl hne
    | cons c ds => exact ⟨_, _, rfl⟩
  have hvalue := ofDigits_map ds
  rw [hns] at htake hvalue
  unfold exponent?
  simp [hsign, htake, hvalue]

end BayesGraph.Numeral
