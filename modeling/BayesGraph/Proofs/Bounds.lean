import Mathlib
import BayesGraph.Proofs.FaithfulFunctions
import BayesGraph.Proofs.FiniteDoubles

/-!
# Numbers as bounds of supports

A value denotes a real if it stands for it beside computed reals. Reversing the sign of a bound and
taking the difference of two bounds are what they are for the reals, except that integers of 64
bits can wrap around (`Value.Near` excludes this). A quotient of numbers is a number.

The tighter one of two bounds can be a known integer where it is a computed real otherwise
(`Value.Matches`), because known numbers are compared without being computed with.
-/

set_option autoImplicit false

namespace BayesGraph

open Outcome ExactReals

/-- A word with a sign is the integer that it is made from. -/
theorem Word.toInt_like_signed {m : Int64} {n : Int} (h : fitsSigned n = true) :
    ((Word.signed m).like n).toInt = n := by
  rw [fitsSigned_iff] at h
  have hsize : Int64.size = 18446744073709551616 := rfl
  rw [like, toInt, Int64.toInt_ofInt, hsize, Int.bmod_def]
  omega

/-- A word holds any integer that fits its format. -/
theorem Word.toInt_like {w : Word} {n : Int} (h : w.holds n = true) : (w.like n).toInt = n := by
  cases w with
  | signed a => exact toInt_like_signed h
  | unsigned a =>
    rw [holds, fitsUnsigned_iff] at h
    change ((UInt64.ofNat (n % 18446744073709551616).toNat).toNat : Int) = n
    rw [UInt64.toNat_ofNat']
    omega

namespace Value

variable {v w x y : Value ℝ} {a b c : ℝ}

/-- The value is a number beside computed reals. -/
structure Denotes (v : Value ℝ) (a : ℝ) : Prop where
  settled : v.Settled
  operand : v.operand .density = .ok (.scalar a)

/-- A real in either form denotes itself. -/
theorem Alike.denotes (h : Alike (.scalar a) v) : v.Denotes a := by
  cases h with
  | same h => exact ⟨h, rfl⟩
  | known a => exact ⟨trivial, rfl⟩

/-- An operand that stands for a number denotes it. -/
theorem denotes_of_operand {t : Tensor ℝ} (hsettled : v.Settled) (h : v.operand .density = .ok t)
    (hreal : v.real? = some a) : v.Denotes a := by
  refine ⟨hsettled, ?_⟩
  match v with
  | .number k =>
    obtain ⟨b, rfl, hb⟩ := ofNumber_of_operand h
    rw [ofNumber_eq_ok hb, Option.some.injEq] at hreal
    rw [h, hreal]
  | .word r w =>
    cases h
    rw [real?, Option.some.injEq] at hreal
    change Except.ok (Tensor.scalar (Scalar.ofInt w.toInt)) = _
    rw [ofInt_eq, hreal]
  | .array r u => exact congrArg Except.ok (Tensor.scalar?_eq_some hreal)
  | .object d => cases hreal

/-- What denotes a number is this real. -/
theorem Denotes.real?_eq (h : v.Denotes a) : v.real? = some a := real?_of_operand h.operand

/-- A computed real is like itself. -/
theorem alike_scalar (a : ℝ) : Alike (.scalar a) (.scalar a) := .same rfl

/-- Computed reals are added. -/
theorem scalar_add_scalar (a b : ℝ) : (scalar a).add (.scalar b) = .ok (.scalar (a + b)) := rfl

/-- Computed reals are multiplied. -/
theorem scalar_mul_scalar (a b : ℝ) : (scalar a).mul (.scalar b) = .ok (.scalar (a * b)) := rfl

/-- A number is added to a real. -/
theorem Denotes.add (hv : v.Denotes a) (hx : Alike (.scalar b) x) :
    ∃ u, v.add x = .ok u ∧ Alike (.scalar (a + b)) u := by
  have hcombine : v.combine (· + ·) (.scalar b) = .ok (.scalar (a + b)) := by
    have hrules : v.origin.join (scalar b).origin = .density := join_density _
    unfold combine
    rw [hrules]
    dsimp only
    rw [hv.operand, ExactScalar.binary_eq]
    rfl
  have hadd : v.add (.scalar b) = .ok (.scalar (a + b)) := (add_array_right _ _ _).trans hcombine
  exact follows_add (.same hv.settled) hx _ hadd

/-- A number is subtracted from a real. -/
theorem Denotes.sub (hv : v.Denotes a) (hx : Alike (.scalar b) x) :
    ∃ u, x.sub v = .ok u ∧ Alike (.scalar (b - a)) u := by
  have hsub : (scalar b).sub v = .ok (.scalar (b - a)) :=
    (sub_array_left _ _ _).trans (combine_scalar_left hv.operand)
  exact follows_sub hx (.same hv.settled) _ hsub

/-- The sum of two reals is the same in every form. -/
theorem add_alike (hx : Alike (.scalar a) x) (hy : Alike (.scalar b) y) :
    ∃ u, x.add y = .ok u ∧ Alike (.scalar (a + b)) u := hx.denotes.add hy

/-- The opposite of a real is the same in every form. -/
theorem neg_alike (hx : Alike (.scalar a) x) : Alike (.scalar (-a)) x.neg := by
  cases hx with
  | same _ => exact alike_scalar _
  | known a => exact .known _

/-- A function of reals takes every form of a real to the same scalar. -/
theorem lift_alike (f : ℝ → ℝ) (hx : Alike (.scalar a) x) :
    x.lift .density f = .ok (.scalar (f a)) := by
  unfold lift
  rw [← hx.argument_eq]
  change Except.ok (array .density (.scalar (Rules.unary .density f a))) = _
  rw [ExactScalar.unary_eq]
  rfl

/-- Every form of a real is converted to the same array. -/
theorem toTensor_alike (hx : Alike (.scalar a) x) : x.toTensor = .ok (.scalar a) :=
  hx.toTensor_eq.symm

/-- Every form of a real is converted to the same scalar. -/
theorem toScalar_alike (hx : Alike (.scalar a) x) : x.toScalar = .ok a := by
  cases hx <;> rfl

/-! ## Signs, differences and quotients -/

/-- The opposite of a settled value is settled. -/
theorem Settled.neg (h : v.Settled) : v.neg.Settled := by
  match v with
  | .number (.int _) | .number (.real _) | .object _ => trivial
  | .word _ _ | .array _ _ => exact h

/-- An integer is the real that it is. -/
theorem integer?_ne_of_real? {n : Int} (h : v.real? ≠ some (n : ℝ)) : v.integer? ≠ some n := by
  intro hn
  unfold integer? at hn
  split at hn
  · cases hn
    exact h rfl
  · cases hn
    exact h rfl
  · cases hn

/-- The sign of a bound is reversed exactly. -/
theorem real?_neg (hopposite : v.integer? ≠ some (-2 ^ 63))
    (hsigned : ∀ r n, v ≠ .word r (.unsigned n)) : v.neg.real? = v.real?.map (- ·) := by
  match v with
  | .number (.int n) => simp [neg, real?, int]
  | .number (.real x) => rfl
  | .word r (.signed n) =>
    have hn : n.toInt ≠ -9223372036854775808 := fun hn => hopposite (congrArg some hn)
    have hlow := n.le_toInt
    have hhigh := n.toInt_lt
    have hfits : Word.fitsSigned (-n.toInt) = true := by
      rw [Word.fitsSigned_iff]
      omega
    have hneg : ((Word.signed n).like (-n.toInt)).toInt = -n.toInt := Word.toInt_like_signed hfits
    change some ((((Word.signed n).like (-n.toInt)).toInt : Int) : ℝ) = some (-(n.toInt : ℝ))
    rw [hneg, Int.cast_neg]
  | .word r (.unsigned n) => exact absurd rfl (hsigned r n)
  | .array r t => exact Tensor.scalar?_map (- ·) t
  | .object d => rfl

/-- Computed integers of one format, and the integer that an operation gives. -/
theorem real?_like {r : Rules} {m : Int64} {n : Int} (h : Word.fitsSigned n = true) :
    (Value.word r ((Word.signed m).like n) : Value ℝ).real? = some (n : ℝ) := by
  rw [real?, Word.toInt_like_signed h]

/-- Beside a computed integer, two bounds are so small that their difference does not wrap
around. -/
structure Near (x y : Value ℝ) : Prop where
  signed : ∀ r n, x ≠ .word r (.unsigned n) ∧ y ≠ .word r (.unsigned n)
  small : ∀ r w, x = .word r w ∨ y = .word r w →
    ∀ a b, x.real? = some a → y.real? = some b → |a| < 2 ^ 62 ∧ |b| < 2 ^ 62

/-- The difference of small integers fits a word. -/
theorem fitsSigned_sub {m n : Int} (hm : |(m : ℝ)| < 2 ^ 62) (hn : |(n : ℝ)| < 2 ^ 62) :
    Word.fitsSigned (m - n) = true := by
  have hm' : |m| < 2 ^ 62 := by exact_mod_cast hm
  have hn' : |n| < 2 ^ 62 := by exact_mod_cast hn
  rw [abs_lt] at hm' hn'
  rw [Word.fitsSigned_iff]
  omega

/-- A difference that is a number is the difference of two numbers. -/
theorem sub_eq_ok (h : x.sub y = .ok v) (hv : v.real? = some c) (hnear : Near x y) :
    ∃ a b, x.real? = some a ∧ y.real? = some b ∧ c = a - b := by
  -- real operands, whether they are computed or not
  have hcombine (hc : x.combine (· - ·) y = .ok v) :
      ∃ a b, x.real? = some a ∧ y.real? = some b ∧ c = a - b := by
    obtain ⟨rules, a, b, ha, hb, -, rfl⟩ := combine_eq_scalar hc (shape_of_real? hv)
    exact ⟨a, b, real?_of_operand ha, real?_of_operand hb, (Option.some.inj hv).symm⟩
  have hword {m n : Int} {w : Int64} {r : Rules} (hm : |(m : ℝ)| < 2 ^ 62)
      (hn : |(n : ℝ)| < 2 ^ 62)
      (hw : (word r ((Word.signed w).like (m - n)) : Value ℝ).real? = some c) :
      c = (m : ℝ) - n := by
    rw [real?_like (fitsSigned_sub hm hn)] at hw
    rw [← Option.some.inj hw, Int.cast_sub]
  unfold sub arithmetic at h
  split at h
  · next m n =>
    cases h
    exact ⟨m, n, rfl, rfl, by rw [← Option.some.inj hv, Int.cast_sub]⟩
  · next k l _ =>
    simp only [bind_eq_ok, pure_eq_ok] at h
    obtain ⟨a, ha, b, hb, rfl⟩ := h
    exact ⟨a, b, ofNumber_eq_ok ha, ofNumber_eq_ok hb, (Option.some.inj hv).symm⟩
  · next r w n =>
    obtain ⟨-, rfl⟩ := besideWord_eq_ok h
    obtain ⟨hm, hn⟩ := hnear.small r w (Or.inl rfl) _ _ rfl rfl
    cases w with
    | signed w => exact ⟨_, _, rfl, rfl, hword hm hn hv⟩
    | unsigned w => exact absurd rfl (hnear.signed r w).1
  · next n r w =>
    obtain ⟨-, rfl⟩ := besideWord_eq_ok h
    obtain ⟨hm, hn⟩ := hnear.small r w (Or.inr rfl) _ _ rfl rfl
    cases w with
    | signed w => exact ⟨_, _, rfl, rfl, hword hm hn hv⟩
    | unsigned w => exact absurd rfl (hnear.signed r w).2
  · next r u s w =>
    split at h
    · next result hresult =>
      cases h
      obtain ⟨-, rfl⟩ := Word.combine?_eq_some hresult
      obtain ⟨hm, hn⟩ := hnear.small r u (Or.inl rfl) _ _ rfl rfl
      cases u with
      | signed u => exact ⟨_, _, rfl, rfl, hword hm hn hv⟩
      | unsigned u => exact absurd rfl (hnear.signed r u).1
    · exact hcombine h
  · cases h
  · cases h
  · cases h
  · exact hcombine h

/-- An operation on numbers, one of which is computed. -/
theorem Denotes.combine {f : ℝ → ℝ → ℝ} (hx : x.Denotes a) (hy : y.Denotes b)
    (hcomputed : x.isKnown = false ∨ y.isKnown = false) :
    x.combine f y = .ok (.scalar (f a b)) := by
  have hrules : x.origin.join y.origin = .density := by
    rcases hcomputed with hc | hc
    · rw [origin_of_computed hx.settled hc, density_join]
    · rw [origin_of_computed hy.settled hc, join_density]
  unfold Value.combine
  rw [hrules]
  dsimp only
  rw [hx.operand, hy.operand, ExactScalar.binary_eq]
  rfl

/-- A computed integer denotes the real that it is. -/
theorem denotes_word {w : Word} (h : (Value.word .density w : Value ℝ).real? = some a) :
    (Value.word .density w : Value ℝ).Denotes a := by
  refine ⟨rfl, ?_⟩
  obtain rfl : (w.toInt : ℝ) = a := Option.some.inj h
  change Except.ok (Tensor.scalar (Scalar.ofInt w.toInt)) = _
  rw [ofInt_eq]

/-- A known integer beside a computed one fits its format. -/
theorem holds_of_operand {n : Int} {m : Int64} {t : Tensor ℝ}
    (h : (Value.int n : Value ℝ).operand .density = .ok t) :
    (Word.signed m).holds n = true := by
  obtain ⟨b, hb, -⟩ := map_eq_ok.mp h
  unfold scalarOfInt at hb
  dsimp only at hb
  split at hb
  · next hfits => exact hfits
  · cases hb

/-- The difference of integers, one of which is computed. -/
theorem denotes_word_sub {m n : Int} {w : Int64} (hm : |(m : ℝ)| < 2 ^ 62)
    (hn : |(n : ℝ)| < 2 ^ 62) :
    (Value.word .density ((Word.signed w).like (m - n)) : Value ℝ).Denotes ((m : ℝ) - n) := by
  refine denotes_word ?_
  rw [real?_like (fitsSigned_sub hm hn), Int.cast_sub]

/-- A difference of numbers is a number, unless both are known integers. -/
theorem Denotes.exists_sub (hx : x.Denotes a) (hy : y.Denotes b) (hnear : Near x y) :
    (∃ v, x.sub y = .ok v ∧ v.Denotes (a - b)) ∨ ∃ m n, x = .int m ∧ y = .int n := by
  have hcombine (hcomputed : x.isKnown = false ∨ y.isKnown = false) :
      x.combine (· - ·) y = .ok (.scalar (a - b)) := hx.combine hy hcomputed
  have hscalar (h : x.sub y = .ok (.scalar (a - b))) :
      (∃ v, x.sub y = .ok v ∧ v.Denotes (a - b)) ∨ ∃ m n, x = .int m ∧ y = .int n :=
    Or.inl ⟨_, h, (alike_scalar _).denotes⟩
  have ha := hx.real?_eq
  have hb := hy.real?_eq
  have hleft : (∃ r t, x = .array r t) → (∃ v, x.sub y = .ok v ∧ v.Denotes (a - b)) ∨
      ∃ m n, x = .int m ∧ y = .int n := by
    rintro ⟨r, t, rfl⟩
    exact hscalar ((sub_array_left _ _ _).trans (hcombine (Or.inl rfl)))
  -- Two known integers are subtracted exactly; beside a word or a real the bounds have to be near,
  -- and whatever is computed gives a computed difference.
  rcases y with (n | q) | ⟨r', n | n⟩ | ⟨r', t⟩ | d
  · rcases x with (m | p) | ⟨r, m | m⟩ | ⟨r, t⟩ | d
    · exact Or.inr ⟨m, n, rfl, rfl⟩
    · obtain ⟨c, hc, hk⟩ := ofNumber_of_operand hy.operand
      cases Tensor.scalar_inj hc
      cases ha
      exact Or.inl ⟨_, arithmetic_real_left hk, trivial, rfl⟩
    · obtain rfl : r = .density := hx.settled
      obtain ⟨hm, hn⟩ := hnear.small _ _ (Or.inl rfl) _ _ ha hb
      cases ha
      cases hb
      exact Or.inl ⟨.word .density ((Word.signed m).like (m.toInt - n)),
        if_pos (holds_of_operand hy.operand), denotes_word_sub hm hn⟩
    · exact absurd rfl (hnear.signed r m).1
    · exact hleft ⟨r, t, rfl⟩
    · exact absurd hx.operand (operand_object d _)
  · rcases x with k | ⟨r, m | m⟩ | ⟨r, t⟩ | d
    · obtain ⟨c, hc, hk⟩ := ofNumber_of_operand hx.operand
      cases Tensor.scalar_inj hc
      cases hb
      exact Or.inl ⟨_, arithmetic_real_right hk, trivial, rfl⟩
    · exact hscalar (hcombine (Or.inl rfl))
    · exact absurd rfl (hnear.signed r m).1
    · exact hleft ⟨r, t, rfl⟩
    · exact absurd hx.operand (operand_object d _)
  · obtain rfl : r' = .density := hy.settled
    rcases x with (m | p) | ⟨r, m | m⟩ | ⟨r, t⟩ | d
    · obtain ⟨hn, hm⟩ := hnear.small _ _ (Or.inr rfl) _ _ ha hb
      cases ha
      cases hb
      exact Or.inl ⟨.word .density ((Word.signed n).like (m - n.toInt)),
        if_pos (holds_of_operand hx.operand), denotes_word_sub hn hm⟩
    · exact hscalar (hcombine (Or.inr rfl))
    · obtain rfl : r = .density := hx.settled
      obtain ⟨hm, hn⟩ := hnear.small _ _ (Or.inl rfl) _ _ ha hb
      cases ha
      cases hb
      exact Or.inl ⟨.word .density ((Word.signed m).like (m.toInt - n.toInt)), rfl,
        denotes_word_sub hm hn⟩
    · exact absurd rfl (hnear.signed r m).1
    · exact hleft ⟨r, t, rfl⟩
    · exact absurd hx.operand (operand_object d _)
  · exact absurd rfl (hnear.signed r' n).2
  · exact hscalar ((arithmetic_array_right _ _ _).trans (hcombine (Or.inr rfl)))
  · exact absurd hy.operand (operand_object d _)

/-- An integer that fits a word is a double, and so is a quotient of such integers. -/
theorem quotientOfInts_eq {m n : Int} (hm : m.natAbs < 2 ^ 64) (hn : n ≠ 0) :
    (quotientOfInts m n : Except EvalError ℝ) = .ok ((m : ℝ) / n) := by
  unfold quotientOfInts
  rw [if_neg hn, if_pos (Double.isFinite_ofQuotient hm hn)]
  rfl

/-- A known integer that is an operand is not too large. -/
theorem natAbs_of_operand {n : Int} {t : Tensor ℝ}
    (h : (Value.int n : Value ℝ).operand .density = .ok t) : n.natAbs < 2 ^ 64 := by
  obtain ⟨b, hb, -⟩ := map_eq_ok.mp h
  unfold scalarOfInt at hb
  dsimp only at hb
  split at hb
  · next hfits =>
    rw [Word.fitsSigned_iff] at hfits
    omega
  · cases hb

/-- Division by an array takes place entry by entry. -/
theorem quotient_array_right (x : Value ℝ) (r : Rules) (t : Tensor ℝ) :
    x.quotient (.array r t) = x.divide .density (.array r t) := by
  cases x <;> rfl

/-- A quotient of known numbers, not both of them integers. -/
theorem quotientOfNumbers_eq {k l : Number ℝ} (hk : ofNumber k = .ok a) (hl : ofNumber l = .ok b)
    (hb : b ≠ 0) (hreal : (∃ x, k = .real x) ∨ ∃ x, l = .real x) :
    quotientOfNumbers k l = .ok (.real (a / b)) := by
  have hzero : (Scalar.eq b (Scalar.ofInt 0) : Bool) = false :=
    decide_eq_false (by simpa using hb)
  have hreals : quotientOfNumbers k l = (do
      let x ← ofNumber k
      let y ← ofNumber l
      if Scalar.eq y (Scalar.ofInt 0) then throw .zeroDivision else return .real (x / y)) := by
    rcases hreal with ⟨x, rfl⟩ | ⟨x, rfl⟩
    · cases l <;> rfl
    · cases k <;> rfl
  rw [hreals, hk, hl]
  simp only [ok_bind, hzero]
  rfl

/-- A known integer is divided by another one exactly. -/
theorem int_quotient_int {m n : Int} (hm : m.natAbs < 2 ^ 64) (hn : n ≠ 0) :
    (Value.int m : Value ℝ).quotient (.int n) = .ok (.real ((m : ℝ) / n)) := by
  refine map_eq_ok.mpr ⟨.real ((m : ℝ) / n), ?_, rfl⟩
  exact map_eq_ok.mpr ⟨_, quotientOfInts_eq hm hn, rfl⟩

/-- A known real is divided by a known integer exactly. -/
theorem real_quotient_int {n : Int} (hn : n.natAbs < 2 ^ 64) (hne : n ≠ 0) :
    (Value.real a).quotient (.int n) = .ok (.real (a / n)) := by
  refine map_eq_ok.mpr ⟨.real (a / n), ?_, rfl⟩
  exact quotientOfNumbers_eq rfl (ofInt_of_natAbs hn) (by exact_mod_cast hne) (Or.inl ⟨a, rfl⟩)

/-- A quotient of numbers, the second of which is not zero. -/
theorem Denotes.quotient (hx : x.Denotes a) (hy : y.Denotes b) (hb : b ≠ 0) :
    ∃ v, x.quotient y = .ok v ∧ Alike (.scalar (a / b)) v := by
  have hdivide : x.divide .density y = .ok (.scalar (a / b)) := by
    unfold divide
    rw [hx.operand, hy.operand, ExactScalar.binary_eq]
    rfl
  cases x with
  | number k =>
    cases y with
    | number l =>
      obtain ⟨a', ha', hk⟩ := ofNumber_of_operand hx.operand
      obtain ⟨b', hb', hl⟩ := ofNumber_of_operand hy.operand
      cases Tensor.scalar_inj ha'
      cases Tensor.scalar_inj hb'
      have hreal (h : (∃ x, k = .real x) ∨ ∃ x, l = .real x) :
          ∃ v, (Value.number k).quotient (.number l) = .ok v ∧ Alike (.scalar (a / b)) v :=
        ⟨.real (a / b), map_eq_ok.mpr ⟨_, quotientOfNumbers_eq hk hl hb h, rfl⟩, .known _⟩
      match k, l with
      | .int m, .int n =>
        obtain rfl := ofInt_eq_ok hk
        obtain rfl := ofInt_eq_ok hl
        have hn : n ≠ 0 := by exact_mod_cast hb
        exact ⟨_, int_quotient_int (natAbs_of_operand hx.operand) hn, .known _⟩
      | .real x, _ => exact hreal (Or.inl ⟨x, rfl⟩)
      | _, .real x => exact hreal (Or.inr ⟨x, rfl⟩)
    | word _ _ | array _ _ | object _ => exact ⟨_, hdivide, alike_scalar _⟩
  | word _ _ | array _ _ | object _ => exact ⟨_, hdivide, alike_scalar _⟩

/-! ## The tighter one of two bounds -/

/-- The same bound with known reals: a value that is alike, or an integer of the same size. -/
inductive Matches : Value ℝ → Value ℝ → Prop
  | alike {v w : Value ℝ} (h : Alike v w) : Matches v w
  | integer (n : Int) (h : Word.fitsSigned n = true) : Matches (.scalar n) (.int n)

/-- A known integer that fits a word is an operand. -/
theorem operand_int {n : Int} (h : Word.fitsSigned n = true) :
    (Value.int n : Value ℝ).operand .density = .ok (.scalar (n : ℝ)) := by
  unfold int operand scalarOfInt
  dsimp only
  rw [if_pos h, ofInt_eq]
  rfl

/-- Beside a computed real, both terms of a difference are operands. -/
theorem operands_of_sub (h : x.sub y = .ok v) (hx : x.Settled) (hy : y.Settled)
    (hcomputed : (∃ a, x = .scalar a) ∨ ∃ b, y = .scalar b) :
    ∃ s t, x.operand .density = .ok s ∧ y.operand .density = .ok t := by
  have hcombine : x.combine (· - ·) y = .ok v ∧ x.origin.join y.origin = .density := by
    rcases hcomputed with ⟨a, rfl⟩ | ⟨b, rfl⟩
    · exact ⟨(sub_array_left _ _ _).symm.trans h, density_join _⟩
    · exact ⟨(arithmetic_array_right _ _ _).symm.trans h, join_density _⟩
  obtain ⟨hcombine, hrules⟩ := hcombine
  simp only [Value.combine, hrules, bind_eq_ok] at hcombine
  obtain ⟨s, hs, t, ht, -⟩ := hcombine
  exact ⟨s, t, hs, ht⟩

/-- Bounds that match are the same real. -/
theorem Matches.real?_eq (h : Matches v w) : w.real? = v.real? := by
  cases h with
  | alike h => cases h <;> rfl
  | integer n _ => rfl

/-- A word matches only itself. -/
theorem Matches.eq_word {r : Rules} {n : Word} (h : Matches v (.word r n)) : v = .word r n := by
  cases h with
  | alike h =>
    cases h
    rfl

/-- The opposite of a number that has one denotes the opposite number. -/
theorem Denotes.neg (h : v.Denotes a) (hopposite : v.integer? ≠ some (-2 ^ 63))
    (hsigned : ∀ r n, v ≠ .word r (.unsigned n)) : v.neg.Denotes (-a) := by
  have hreal : v.neg.real? = some (-a) := by
    rw [real?_neg hopposite hsigned, h.real?_eq, Option.map_some]
  match v with
  | .number (.int n) =>
    have hn : n ≠ -9223372036854775808 := fun hn => hopposite (congrArg some hn)
    have hfits : Word.fitsSigned (-n) = true := by
      have hholds := holds_of_operand (m := 0) h.operand
      rw [Word.holds, Word.fitsSigned_iff] at hholds
      rw [Word.fitsSigned_iff]
      omega
    exact denotes_of_operand trivial (operand_int hfits) hreal
  | .number (.real _) | .word _ _ | .array _ _ =>
    exact denotes_of_operand h.settled.neg rfl hreal
  | .object d => exact absurd h.operand (operand_object d _)

/-- The same bound in another form: the bound itself, or a number in place of a computed real. -/
inductive Stands : Value ℝ → Value ℝ → Prop
  | same {v : Value ℝ} (h : v.Settled) : Stands v v
  | number {a : ℝ} {w : Value ℝ} (h : w.Denotes a) : Stands (.scalar a) w

/-- A bound that matches is another form of the bound. -/
theorem Matches.stands (h : Matches v w) : Stands v w := by
  cases h with
  | alike h =>
    cases h with
    | same h => exact .same h
    | known a => exact .number ⟨trivial, rfl⟩
  | integer n h => exact .number ⟨trivial, operand_int h⟩

/-- A bound with another form is settled. -/
theorem Stands.settled_left (h : Stands v w) : v.Settled := by
  cases h with
  | same h => exact h
  | number _ => rfl

/-- Another form of a bound is the bound itself, unless this is a computed real. -/
theorem Stands.eq_or_scalar (h : Stands v w) : w = v ∨ ∃ a, v = .scalar a := by
  cases h with
  | same _ => exact Or.inl rfl
  | @number a _ _ => exact Or.inr ⟨a, rfl⟩

/-- Another form of a bound denotes the same number. -/
theorem Stands.denotes (h : Stands v w) (hv : v.Denotes a) : w.Denotes a := by
  cases h with
  | same _ => exact hv
  | number h =>
    cases hv.operand
    exact h

/-- Another form of a bound is the same real. -/
theorem Stands.real?_eq (h : Stands v w) : w.real? = v.real? := by
  cases h with
  | same _ => rfl
  | number h => exact h.real?_eq

/-- The opposite bound denotes the opposite number, too. -/
theorem Stands.denotes_neg (h : Stands v w) (hv : v.neg.Denotes (-a))
    (hopposite : w.integer? ≠ some (-2 ^ 63)) (hsigned : ∀ r n, w ≠ .word r (.unsigned n)) :
    w.neg.Denotes (-a) := by
  cases h with
  | same _ => exact hv
  | @number b _ h =>
    obtain rfl : b = a := neg_injective (Tensor.scalar_inj (Except.ok.inj hv.operand))
    exact h.neg hopposite hsigned

/-- The tighter one of two computed bounds. -/
noncomputable def tighten (isUpper : Bool) (x y : Value ℝ) : Except EvalError (Value ℝ) :=
  if isUpper then Builtin.pairwise .density min Scalar.min x y
  else Builtin.pairwise .density max Scalar.max x y

/-- The tighter one of two reals. -/
noncomputable def tighter (isUpper : Bool) (a b : ℝ) : ℝ :=
  if isUpper then Scalar.min a b else Scalar.max a b

/-- Bounds that are not both known are computed with. -/
theorem tighterBound_computed (isUpper : Bool) (h : ∀ k l, x = .number k → y ≠ .number l) :
    tighterBound isUpper (some x) (some y) = (do return some (← tighten isUpper x y)) := by
  cases x with
  | number k =>
    cases y with
    | number l => exact absurd rfl (h k l rfl)
    | word _ _ | array _ _ | object _ => cases isUpper <;> rfl
  | word _ _ | array _ _ | object _ => cases y <;> cases isUpper <;> rfl

/-- Known bounds are compared as reals. -/
theorem tighterBound_numbers (isUpper : Bool) {k l : Number ℝ} (hk : (number k).real? = some a)
    (hl : (number l).real? = some b) (hka : Matches (.scalar a) (.number k))
    (hlb : Matches (.scalar b) (.number l)) :
    ∃ bound, tighterBound isUpper (some (.number k)) (some (.number l)) = .ok bound ∧
      Option.Rel Matches (some (.scalar (tighter isUpper a b))) bound := by
  have hchoice (p : Prop) [Decidable p] :
      Matches (.scalar (if p then b else a)) (.number (if p then l else k)) := by
    split
    · exact hlb
    · exact hka
  cases isUpper with
  | true =>
    refine ⟨some (.number (if numbersLt l k then l else k)), rfl, .some ?_⟩
    rw [tighter, if_pos rfl, min_eq]
    simp only [numbersLt_iff hl hk]
    exact hchoice _
  | false =>
    refine ⟨some (.number (if numbersLt k l then l else k)), rfl, .some ?_⟩
    rw [tighter, if_neg Bool.false_ne_true, max_eq]
    simp only [numbersLt_iff hk hl]
    exact hchoice _

/-- The tighter one of two computed bounds is the same for both forms. -/
theorem follows_tighten (isUpper : Bool) {x' y' : Value ℝ} (hx : Alike x x') (hy : Alike y y') :
    Follows (tighten isUpper x y) (tighten isUpper x' y') := by
  unfold tighten
  split
  · exact Builtin.follows_pairwise hx hy
  · exact Builtin.follows_pairwise hx hy

/-- A known number that is computed with. -/
theorem computed_number {k : Number ℝ} (h : Builtin.computed .density (.number k) = .ok v) :
    ∃ b, v.Denotes b ∧ v.isKnown = false ∧ (number k).real? = some b ∧
      Matches (.scalar b) (.number k) := by
  cases k with
  | real x =>
    cases h
    exact ⟨x, ⟨rfl, rfl⟩, rfl, rfl, .alike (.known x)⟩
  | int n =>
    have hword : Builtin.computedInt .density n = .ok v := h
    unfold Builtin.computedInt Word.signed? at hword
    by_cases hfits : Word.fitsSigned n = true
    · rw [if_pos hfits] at hword
      cases hword
      have hreal := real?_like (r := .density) (m := 0) hfits
      exact ⟨n, denotes_word hreal, rfl, rfl, .integer n hfits⟩
    · rw [if_neg hfits] at hword
      cases hword

/-- The tighter one of two computed bounds is found by converting both. -/
theorem tighten_eq (isUpper : Bool) (x y : Value ℝ) : tighten isUpper x y = (do
    let u ← Builtin.computed .density x
    let w ← Builtin.computed .density y
    arithmetic (if isUpper then min else max) (tighter isUpper) u w) := by
  cases isUpper <;> rfl

/-- A scalar is computed already. -/
theorem computed_scalar (a : ℝ) : Builtin.computed .density (.scalar a) = .ok (.scalar a) := rfl

/-- The tighter one of a computed real and a known number. -/
theorem tighten_number_right (isUpper : Bool) {k : Number ℝ}
    (h : tighten isUpper (.scalar a) (.number k) = .ok v) :
    ∃ b, (number k).real? = some b ∧ Matches (.scalar b) (.number k) ∧
      v = .scalar (tighter isUpper a b) := by
  rw [tighten_eq, computed_scalar, ok_bind, bind_eq_ok] at h
  obtain ⟨w, hw, h⟩ := h
  obtain ⟨b, hb, hcomputed, hk, hmatches⟩ := computed_number hw
  rw [scalar, arithmetic_array_left] at h
  have hcombine := (alike_scalar a).denotes.combine (f := tighter isUpper) hb (Or.inr hcomputed)
  exact ⟨b, hk, hmatches, Except.ok.inj (h.symm.trans hcombine)⟩

/-- A known bound beside a computed one is converted, and the tighter number is taken. -/
theorem tighten_number_left (isUpper : Bool) {k : Number ℝ}
    (h : tighten isUpper (.number k) (.scalar a) = .ok v) :
    ∃ b, (number k).real? = some b ∧ Matches (.scalar b) (.number k) ∧
      v = .scalar (tighter isUpper b a) := by
  rw [tighten_eq, bind_eq_ok] at h
  obtain ⟨w, hw, h⟩ := h
  obtain ⟨b, hb, hcomputed, hk, hmatches⟩ := computed_number hw
  rw [computed_scalar, ok_bind, scalar, arithmetic_array_right] at h
  have hcombine := hb.combine (f := tighter isUpper) (alike_scalar a).denotes (Or.inl hcomputed)
  exact ⟨b, hk, hmatches, Except.ok.inj (h.symm.trans hcombine)⟩

section Tighter

variable {isUpper : Bool} {x' y' : Value ℝ} {bound : Option (Value ℝ)}

/-- Bounds that are computed with, unless both are known numbers. -/
theorem tighterBound_follows (hx : Alike x x') (hy : Alike y y')
    (hn : ∀ k l, x = .number k → y ≠ .number l) (hn' : ∀ k l, x' = .number k → y' ≠ .number l)
    (h : tighterBound isUpper (some x) (some y) = .ok bound) :
    ∃ bound', tighterBound isUpper (some x') (some y') = .ok bound' ∧
      Option.Rel Matches bound bound' := by
  rw [tighterBound_computed isUpper hn, bind_eq_ok] at h
  obtain ⟨v, hv, h⟩ := h
  cases h
  obtain ⟨w, hw, hvw⟩ := follows_tighten isUpper hx hy v hv
  refine ⟨some w, ?_, .some (.alike hvw)⟩
  rw [tighterBound_computed isUpper hn', hw]
  rfl

/-- Known numbers, of which none was computed. -/
theorem tighterBound_known {k l : Number ℝ}
    (h : tighterBound isUpper (some (.number k)) (some (.number l)) = .ok bound) :
    Option.Rel Matches bound bound := by
  cases isUpper with
  | true =>
    cases h
    exact .some (.alike (.same trivial))
  | false =>
    cases h
    exact .some (.alike (.same trivial))

/-- A bound that is known where it was computed, beside one that is the same. -/
theorem tighterBound_known_left (hy : y.Settled)
    (h : tighterBound isUpper (some (.scalar a)) (some y) = .ok bound) :
    ∃ bound', tighterBound isUpper (some (.real a)) (some y) = .ok bound' ∧
      Option.Rel Matches bound bound' := by
  cases y with
  | number k =>
    rw [tighterBound_computed isUpper (by simp [scalar]), bind_eq_ok] at h
    obtain ⟨v, hv, h⟩ := h
    cases h
    obtain ⟨b, hk, hmatches, rfl⟩ := tighten_number_right isUpper hv
    exact tighterBound_numbers isUpper rfl hk (.alike (.known a)) hmatches
  | word _ _ | array _ _ | object _ =>
    exact tighterBound_follows (.known a) (.same hy) (by simp [scalar]) (by simp) h

/-- A computed bound beside a settled one can be replaced by the known real. -/
theorem tighterBound_known_right (hx : x.Settled)
    (h : tighterBound isUpper (some x) (some (.scalar a)) = .ok bound) :
    ∃ bound', tighterBound isUpper (some x) (some (.real a)) = .ok bound' ∧
      Option.Rel Matches bound bound' := by
  cases x with
  | number k =>
    rw [tighterBound_computed isUpper (by simp [scalar]), bind_eq_ok] at h
    obtain ⟨v, hv, h⟩ := h
    cases h
    obtain ⟨b, hk, hmatches, rfl⟩ := tighten_number_left isUpper hv
    exact tighterBound_numbers isUpper hk rfl hmatches (.alike (.known a))
  | word _ _ | array _ _ | object _ =>
    exact tighterBound_follows (.same hx) (.known a) (by simp) (by simp) h

/-- The tighter one of bounds, computed and known. -/
theorem tighterBound_matches {b b' c c' : Option (Value ℝ)} (hb : Option.Rel Alike b b')
    (hc : Option.Rel Alike c c') (h : tighterBound isUpper b c = .ok bound) :
    ∃ bound', tighterBound isUpper b' c' = .ok bound' ∧ Option.Rel Matches bound bound' := by
  cases hb with
  | none =>
    cases h
    refine ⟨c', rfl, ?_⟩
    cases hc with
    | none => exact .none
    | some hvw => exact .some (.alike hvw)
  | @some x _ hx =>
    cases hc with
    | none =>
      cases h
      exact ⟨_, rfl, .some (.alike hx)⟩
    | @some y _ hy =>
      cases hx with
      | known p =>
        cases hy with
        | same hy => exact tighterBound_known_left hy h
        | known q =>
          rw [tighterBound_computed isUpper (by simp [scalar]), tighten_eq] at h
          cases h
          exact tighterBound_numbers isUpper rfl rfl (.alike (.known p)) (.alike (.known q))
      | same hx =>
        cases hy with
        | known q => exact tighterBound_known_right hx h
        | same hy =>
          by_cases hn : ∃ k l, x = .number k ∧ y = .number l
          · obtain ⟨k, l, rfl, rfl⟩ := hn
            exact ⟨bound, h, tighterBound_known h⟩
          · push Not at hn
            exact tighterBound_follows (.same hx) (.same hy) hn hn h

end Tighter

end Value

end BayesGraph
