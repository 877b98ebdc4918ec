import Mathlib
import BayesGraph.BoundDist
import BayesGraph.Proofs.ExactReals
import BayesGraph.Proofs.Terms

/-!
# Transforms and their derivatives

Over the exact reals, the transform of a support takes a real coordinate to a real by a function
that has a derivative without zeros, and `logJacobian` is the logarithm of its absolute value
(`Bijection.Smooth`). The simple maps have these properties and compositions keep them, by the chain
rule. The transform of a support has them if the bounds are numbers, and are not the same number
(`exists_smooth_of_ofSupport`).
-/

set_option autoImplicit false

namespace BayesGraph

open Outcome ExactReals

/-! ## Values that are one number -/

namespace Word

/-- The integers that fit words with a sign. -/
theorem fitsSigned_iff {n : Int} :
    fitsSigned n = true ↔ -9223372036854775808 ≤ n ∧ n < 9223372036854775808 := by
  simp only [fitsSigned, Bool.and_eq_true, decide_eq_true_eq]
  rfl

/-- The integers that fit words without a sign. -/
theorem fitsUnsigned_iff {n : Int} :
    fitsUnsigned n = true ↔ 0 ≤ n ∧ n < 18446744073709551616 := by
  simp only [fitsUnsigned, Bool.and_eq_true, decide_eq_true_eq]
  rfl

/-- A word is not zero if it equals a difference of two integers that its format can hold, modulo
`2 ^ 64`, and these are different. -/
theorem like_ne_zero {w : Word} {m n : Int} (hm : w.holds m = true) (hn : w.holds n = true)
    (hmn : m ≠ n) : (w.like (m - n)).toInt ≠ 0 := by
  cases w with
  | signed a =>
    rw [holds, fitsSigned_iff] at hm hn
    have hsize : Int64.size = 18446744073709551616 := rfl
    rw [like, toInt, Int64.toInt_ofInt, hsize, Int.bmod_def]
    omega
  | unsigned a =>
    rw [holds, fitsUnsigned_iff] at hm hn
    change ((UInt64.ofNat ((m - n) % 18446744073709551616).toNat).toNat : Int) ≠ 0
    rw [UInt64.toNat_ofNat']
    omega

/-- A word can hold the integer that it stands for. -/
theorem holds_toInt (w : Word) : w.holds w.toInt = true := by
  cases w with
  | signed a =>
    have hlow := a.le_toInt
    have hhigh := a.toInt_lt
    rw [holds, fitsSigned_iff, toInt]
    omega
  | unsigned a =>
    have hhigh := a.toNat_lt
    rw [holds, fitsUnsigned_iff, toInt]
    omega

/-- Two words of one format are combined to the word of this format. -/
theorem combine?_eq_some {f : Int → Int → Int} {v w u : Word} (h : combine? f v w = some u) :
    (∀ n, w.holds n = v.holds n) ∧ u = v.like (f v.toInt w.toInt) := by
  cases v with
  | signed m =>
    cases w with
    | signed n =>
      cases h
      exact ⟨fun _ => rfl, rfl⟩
    | unsigned n => cases h
  | unsigned m =>
    cases w with
    | signed n => cases h
    | unsigned n =>
      cases h
      exact ⟨fun _ => rfl, rfl⟩

end Word

namespace Datum

/-- An object that is read as an array has the shape of that array. -/
theorem shape?_of_tensor {d : Datum} {t : Tensor Double} (h : d.tensor = .ok t) :
    d.shape? = some t.shape := by
  unfold tensor at h
  split at h
  · cases h
  · next items hitems =>
    unfold Tensor.mapM at h
    split at h
    · cases h
      unfold rectangle? at hitems
      split at hitems
      · cases hitems
      · next shape hshape =>
        cases hitems
        exact hshape
    · cases h

/-- A list has a dimension. -/
theorem ne_nil_of_isList {d : Datum} {shape : List Nat} (hlist : d.isList = true)
    (h : d.shape? = some shape) : shape ≠ [] := by
  cases d with
  | list items =>
    rw [shape?, Option.map_eq_some_iff] at h
    obtain ⟨rest, -, rfl⟩ := h
    exact List.cons_ne_nil _ _
  | _ => cases hlist

end Datum

namespace Value

/-- The real that a value stands for, if it is one number. -/
def real? : Value ℝ → Option ℝ
  | .number (.int n) => some n
  | .number (.real x) => some x
  | .word _ w => some w.toInt
  | .array _ t => t.scalar?
  | .object _ => none

variable {u v w x y : Value ℝ} {a b c : ℝ}

/-- A computed scalar is its number. -/
@[simp] theorem real?_scalar (a : ℝ) : (scalar a).real? = some a := rfl

/-- A converted integer is this real. -/
theorem ofInt_eq_ok {n : Int} (h : (ofInt n : Except EvalError ℝ) = .ok a) : a = n := by
  unfold ofInt at h
  split at h
  · cases h
    exact ofInt_eq n
  · cases h

/-- A converted number is the real that it is. -/
theorem ofNumber_eq_ok {k : Number ℝ} (h : ofNumber k = .ok a) : (number k).real? = some a := by
  cases k with
  | int n => rw [ofInt_eq_ok h, real?]
  | real x =>
    cases h
    rfl

/-- Only lists count as arrays, and these have a dimension. -/
theorem shape_of_arrayOfObject {rules : Rules} {d : Datum} {t : Tensor ℝ}
    (h : arrayOfObject rules d = .ok t) : t.shape ≠ [] := by
  unfold arrayOfObject at h
  split at h
  · next hlist =>
    unfold toTensor at h
    simp only [bind_eq_ok, pure_eq_ok] at h
    obtain ⟨entries, hentries, rfl⟩ := h
    exact Datum.ne_nil_of_isList hlist.2 (Datum.shape?_of_tensor hentries)
  · cases h

/-- An operand that is a scalar is the number that the value stands for. -/
theorem real?_of_operand {rules : Rules} (h : v.operand rules = .ok (.scalar a)) :
    v.real? = some a := by
  match v with
  | .number (.int n) =>
    obtain ⟨x, hx, hscalar⟩ := map_eq_ok.mp h
    cases Tensor.scalar_inj hscalar
    cases rules with
    | folding => rw [ofInt_eq_ok hx, real?]
    | density =>
      unfold scalarOfInt at hx
      dsimp only at hx
      split at hx
      · cases hx
        simp [real?]
      · cases hx
  | .number (.real x) =>
    cases h
    rfl
  | .word r w =>
    cases h
    simp [real?]
  | .array r t =>
    cases h
    rfl
  | .object d =>
    have hobject : arrayOfObject rules d = .ok (.scalar a) := by
      cases d with
      | text s =>
        cases rules with
        | folding => cases h
        | density => exact h
      | _ => exact h
    exact absurd rfl (shape_of_arrayOfObject hobject)

/-- A real has no dimensions. -/
theorem shape_of_real? (h : v.real? = some a) : v.shape = [] := by
  match v with
  | .number _ | .word _ _ => rfl
  | .array r t =>
    rw [Tensor.scalar?_eq_some (h : t.scalar? = some a)]
    rfl
  | .object _ => cases h

section Operations

variable {β : Type} {onInts : Int → Int → Int} {onReals : β → β → β} {u v w : Value β}

/-- Beside a word, an integer gives a word of the same format. -/
theorem besideWord_eq_ok {rules : Rules} {w : Word} {n result : Int}
    (h : besideWord rules w n result = .ok u) :
    w.holds n = true ∧ u = .word rules (w.like result) := by
  unfold besideWord at h
  split at h
  · next hn =>
    cases h
    exact ⟨hn, rfl⟩
  · cases h

variable [Scalar β]

/-- Operations on reals give arrays. -/
theorem exists_array_of_combine (h : combine onReals u v = .ok w) : ∃ r t, w = .array r t := by
  simp only [combine, bind_eq_ok, pure_eq_ok] at h
  obtain ⟨_, -, _, -, t, -, rfl⟩ := h
  exact ⟨_, t, rfl⟩

/-- How a sum, a difference or a product comes to its result. -/
inductive Computes (onInts : Int → Int → Int) (onReals : β → β → β) :
    Value β → Value β → Value β → Prop
  | ints (m n : Int) :
      Computes onInts onReals (.number (.int m)) (.number (.int n)) (.number (.int (onInts m n)))
  | reals {k l : Number β} {a b : β} (ha : ofNumber k = .ok a) (hb : ofNumber l = .ok b) :
      Computes onInts onReals (.number k) (.number l) (.real (onReals a b))
  | wordInt (r : Rules) {w : Word} {n : Int} (hn : w.holds n = true) :
      Computes onInts onReals (.word r w) (.number (.int n)) (.word r (w.like (onInts w.toInt n)))
  | intWord (r : Rules) {w : Word} {n : Int} (hn : w.holds n = true) :
      Computes onInts onReals (.number (.int n)) (.word r w) (.word r (w.like (onInts n w.toInt)))
  | words (r s : Rules) {x y z : Word} (h : x.combine? onInts y = some z) :
      Computes onInts onReals (.word r x) (.word s y) (.word (r.join s) z)
  | combined {u v w : Value β} (hcomputed : u.isKnown = false ∨ v.isKnown = false)
      (h : combine onReals u v = .ok w) : Computes onInts onReals u v w

/-- An operation that succeeds is one on integers, on words of one format, or on reals. -/
theorem arithmetic_eq_ok (h : arithmetic onInts onReals u v = .ok w) :
    Computes onInts onReals u v w := by
  unfold arithmetic at h
  split at h
  · cases h
    exact .ints _ _
  · simp only [bind_eq_ok, pure_eq_ok] at h
    obtain ⟨a, ha, b, hb, rfl⟩ := h
    exact .reals ha hb
  · obtain ⟨hn, rfl⟩ := besideWord_eq_ok h
    exact .wordInt _ hn
  · obtain ⟨hn, rfl⟩ := besideWord_eq_ok h
    exact .intWord _ hn
  · split at h
    · next hresult =>
      cases h
      exact .words _ _ hresult
    · exact .combined (Or.inl rfl) h
  · cases h
  · cases h
  · cases h
  · next hnumbers _ _ _ hobjects hobject hnumber =>
    -- numbers and objects beside each other are the cases above
    refine .combined ?_ h
    by_contra hknown
    rw [not_or, Bool.not_eq_false, Bool.not_eq_false] at hknown
    obtain ⟨hu, hv⟩ := hknown
    cases u with
    | number k =>
      cases v with
      | number l => exact hnumbers k l rfl rfl
      | object e => exact hnumber k e rfl rfl
      | word _ _ | array _ _ => cases hv
    | object d =>
      cases v with
      | number l => exact hobject d l rfl rfl
      | object e => exact hobjects d e rfl rfl
      | word _ _ | array _ _ => cases hv
    | word _ _ | array _ _ => cases hu

end Operations

/-- If an operation on reals gives a scalar, both operands are scalars. -/
theorem combine_eq_scalar {f : ℝ → ℝ → ℝ} (h : x.combine f y = .ok v) (hv : v.shape = []) :
    ∃ rules a b, x.operand rules = .ok (.scalar a) ∧ y.operand rules = .ok (.scalar b) ∧
      rules = x.origin.join y.origin ∧ v = .array rules (.scalar (f a b)) := by
  simp only [combine, bind_eq_ok, pure_eq_ok] at h
  obtain ⟨s, hs, t, ht, u, hu, rfl⟩ := h
  obtain ⟨a, b, rfl, rfl, rfl⟩ := Tensor.zipWith?_eq_scalar (zip_eq_ok_iff.mp hu) hv
  rw [ExactScalar.binary_eq]
  exact ⟨_, a, b, hs, ht, rfl, rfl⟩

/-- An operation on a real of a density and a number beside it. -/
theorem combine_scalar_left {f : ℝ → ℝ → ℝ} (h : v.operand .density = .ok (.scalar b)) :
    (scalar a).combine f v = .ok (.scalar (f a b)) := by
  have hrules : (scalar a).origin.join v.origin = .density := density_join _
  unfold combine
  rw [hrules]
  dsimp only
  rw [h, ExactScalar.binary_eq]
  rfl

/-- A difference that is zero is one of equal numbers. -/
theorem eq_of_sub_eq_zero (h : x.sub y = .ok v) (hv : v.real? = some 0) :
    ∃ a, x.real? = some a ∧ y.real? = some a := by
  -- real operands, whether they are computed or not
  have hcombine (hc : x.combine (· - ·) y = .ok v) : ∃ a, x.real? = some a ∧ y.real? = some a := by
    obtain ⟨rules, a, b, ha, hb, -, rfl⟩ := combine_eq_scalar hc (shape_of_real? hv)
    have hab : a - b = 0 := Option.some.inj hv
    exact ⟨a, real?_of_operand ha, sub_eq_zero.mp hab ▸ real?_of_operand hb⟩
  have hword {m n : Int} {w : Word} {r : Rules} (hm : w.holds m = true) (hn : w.holds n = true)
      (hv : (word r (w.like (m - n))).real? = some 0) : m = n := by
    by_contra hmn
    exact Word.like_ne_zero hm hn hmn (by simpa [real?] using hv)
  cases arithmetic_eq_ok (h : arithmetic (· - ·) (· - ·) x y = .ok v) with
  | ints m n =>
    have hdiff : ((m - n : Int) : ℝ) = 0 := Option.some.inj hv
    have hmn : (m : ℝ) - n = 0 := by exact_mod_cast hdiff
    exact ⟨m, rfl, congrArg some (sub_eq_zero.mp hmn).symm⟩
  | @reals k l a b ha hb =>
    have hab : a - b = 0 := Option.some.inj hv
    exact ⟨a, ofNumber_eq_ok ha, sub_eq_zero.mp hab ▸ ofNumber_eq_ok hb⟩
  | @wordInt r w n hn =>
    exact ⟨n, congrArg (fun k : Int => some (k : ℝ)) (hword w.holds_toInt hn hv), rfl⟩
  | @intWord r w n hn =>
    exact ⟨w.toInt, congrArg (fun k : Int => some (k : ℝ)) (hword hn w.holds_toInt hv), rfl⟩
  | @words r s u w result hresult =>
    obtain ⟨hformat, rfl⟩ := Word.combine?_eq_some hresult
    have heq := hword u.holds_toInt (hformat w.toInt ▸ w.holds_toInt) hv
    exact ⟨w.toInt, congrArg (fun k : Int => some (k : ℝ)) heq, rfl⟩
  | combined _ hc => exact hcombine hc

/-- The quotient of known numbers is a known real. -/
theorem quotientOfNumbers_eq_ok {k l m : Number ℝ} (h : quotientOfNumbers k l = .ok m) :
    ∃ a b, (number k).real? = some a ∧ (number l).real? = some b ∧ m = .real (a / b) := by
  have hreals (hr : (do
      let x ← ofNumber k
      let y ← ofNumber l
      if Scalar.eq y (Scalar.ofInt 0) then throw .zeroDivision else return .real (x / y)) =
        (.ok m : Except EvalError (Number ℝ))) :
      ∃ a b, (number k).real? = some a ∧ (number l).real? = some b ∧ m = .real (a / b) := by
    simp only [bind_eq_ok] at hr
    obtain ⟨a, ha, b, hb, hr⟩ := hr
    split at hr
    · cases hr
    · cases hr
      exact ⟨a, b, ofNumber_eq_ok ha, ofNumber_eq_ok hb, rfl⟩
  cases k with
  | real x => cases l <;> exact hreals h
  | int i =>
    cases l with
    | real y => exact hreals h
    | int j =>
      obtain ⟨q, hq, rfl⟩ := map_eq_ok.mp h
      unfold quotientOfInts at hq
      split at hq
      · cases hq
      · split at hq
        · cases hq
          exact ⟨i, j, rfl, rfl, rfl⟩
        · cases hq

/-- A quotient that is a number is the quotient of two numbers, as a known real or as one of a
density. -/
theorem quotient_eq_scalar (h : x.quotient y = .ok v)
    (hv : v.operand .density = .ok (.scalar c)) :
    ∃ a b, x.real? = some a ∧ y.real? = some b ∧ c = a / b ∧ (v = .real c ∨ v = .scalar c) := by
  have hdivide (hd : x.divide .density y = .ok v) :
      ∃ a b, x.real? = some a ∧ y.real? = some b ∧ c = a / b ∧ (v = .real c ∨ v = .scalar c) := by
    simp only [divide, bind_eq_ok, pure_eq_ok] at hd
    obtain ⟨s, hs, t, ht, u, hu, rfl⟩ := hd
    cases hv
    obtain ⟨a, b, rfl, rfl, hu'⟩ := Tensor.zipWith?_eq_scalar (zip_eq_ok_iff.mp hu) rfl
    rw [ExactScalar.binary_eq] at hu'
    exact ⟨a, b, real?_of_operand hs, real?_of_operand ht, Tensor.scalar_inj hu', Or.inr rfl⟩
  unfold quotient at h
  split at h
  · next k l =>
    obtain ⟨m, hm, rfl⟩ := map_eq_ok.mp h
    obtain ⟨a, b, ha, hb, rfl⟩ := quotientOfNumbers_eq_ok hm
    cases hv
    exact ⟨a, b, ha, hb, rfl, Or.inl rfl⟩
  · exact hdivide h

end Value

/-! ## Bijections with a derivative -/

namespace Bijection

variable {b outer inner : Bijection ℝ} {offset slope x : Value ℝ} {F D G E : ℝ → ℝ} {o c y : ℝ}

/-- Backward, the bijection is the function `F` of one real, and `D` is its derivative. -/
structure Smooth (b : Bijection ℝ) (F D : ℝ → ℝ) : Prop where
  backward : ∀ y, b.backward (.scalar y) = .ok (.scalar (F y))
  derivative : ∀ y, HasDerivAt F (D y) y
  ne_zero : ∀ y, D y ≠ 0
  logJacobian : ∀ y, b.logJacobian (.scalar y) = .ok (.scalar (Real.log |D y|))

/-- The identity is smooth with slope one. -/
theorem Smooth.identity : (identity : Bijection ℝ).Smooth id fun _ => 1 where
  backward _ := rfl
  derivative := hasDerivAt_id
  ne_zero _ := one_ne_zero
  logJacobian y := by
    change Except.ok (Value.scalar (Scalar.ofInt 0)) = _
    simp

/-- The exponential is its own derivative. -/
theorem Smooth.log : (log : Bijection ℝ).Smooth Real.exp Real.exp where
  backward _ := rfl
  derivative := Real.hasDerivAt_exp
  ne_zero := Real.exp_ne_zero
  logJacobian y := by
    change Except.ok (Value.scalar y) = _
    rw [abs_of_pos (Real.exp_pos y), Real.log_exp]

/-- The logistic function is smooth. -/
theorem Smooth.logit :
    (logit : Bijection ℝ).Smooth Real.sigmoid fun y => y.sigmoid * (1 - y.sigmoid) where
  backward _ := rfl
  derivative := Real.hasDerivAt_sigmoid
  ne_zero y := mul_ne_zero (Real.sigmoid_pos y).ne' (sub_ne_zero.mpr (Real.sigmoid_lt_one y).ne')
  logJacobian y := by
    have hpos := Real.sigmoid_pos y
    have hneg := Real.sigmoid_pos (-y)
    change Except.ok (Value.scalar (Scalar.logLogistic y + Scalar.logLogistic (-y))) = _
    rw [← Real.sigmoid_neg, abs_of_pos (mul_pos hpos hneg), Real.log_mul hpos.ne' hneg.ne',
      logLogistic_eq, logLogistic_eq]

/-- An affine map whose offset and slope are numbers, the slope not being zero. -/
theorem Smooth.affine (ho : offset.operand .density = .ok (.scalar o))
    (hslope : slope = .real c ∨ slope = .scalar c) (hc : c ≠ 0) :
    (affine offset slope).Smooth (fun y => (y - o) / c) fun _ => 1 / c where
  backward y := by
    have hsub : (Value.scalar y).sub offset = .ok (.scalar (y - o)) :=
      (Value.sub_array_left _ _ _).trans (Value.combine_scalar_left ho)
    rw [Bijection.backward, hsub, ok_bind]
    rcases hslope with rfl | rfl <;> rfl
  derivative y := by simpa using ((hasDerivAt_id y).sub_const o).div_const c
  ne_zero _ := one_div_ne_zero hc
  logJacobian y := by
    have hstretch : (Bijection.affine offset slope).logJacobian (.scalar y) =
        .ok (.scalar (-Real.log |c| * Scalar.ofInt 1)) := by
      rcases hslope with rfl | rfl <;> rfl
    rw [hstretch, ofInt_eq, one_div, abs_inv, Real.log_inv]
    simp

/-- The chain rule. -/
theorem Smooth.compose (hinner : inner.Smooth F D) (houter : outer.Smooth G E) :
    (Bijection.compose outer inner).Smooth (F ∘ G) fun y => D (G y) * E y where
  backward y := by rw [Bijection.backward, houter.backward, ok_bind, hinner.backward]; rfl
  derivative y := (hinner.derivative (G y)).comp y (houter.derivative y)
  ne_zero y := mul_ne_zero (hinner.ne_zero (G y)) (houter.ne_zero y)
  logJacobian y := by
    rw [Bijection.logJacobian, houter.logJacobian, ok_bind, houter.backward, ok_bind,
      hinner.logJacobian, ok_bind, abs_mul,
      Real.log_mul (abs_ne_zero.mpr (hinner.ne_zero _)) (abs_ne_zero.mpr (houter.ne_zero y)),
      add_comm]
    rfl

/-- If an affine map takes a real to a scalar, its offset and slope are scalars. -/
theorem operands_of_affine (h : (affine offset slope).backward (.scalar y) = .ok x)
    (hx : x.shape = []) :
    ∃ o c, offset.operand .density = .ok (.scalar o) ∧
      slope.operand .density = .ok (.scalar c) := by
  rw [backward, bind_eq_ok] at h
  obtain ⟨u, hu, hquotient⟩ := h
  change (Value.array .density (.scalar y)).sub offset = .ok u at hu
  rw [Value.sub_array_left] at hu
  obtain ⟨t, rfl⟩ := Value.combine_isDensity hu (Or.inl ⟨_, rfl⟩)
  have hdivide : (Value.array .density t).divide .density slope = .ok x := hquotient
  simp only [Value.divide, bind_eq_ok, pure_eq_ok] at hdivide
  obtain ⟨s, hs, q, hq, z, hz, rfl⟩ := hdivide
  obtain ⟨a, c, rfl, rfl, -⟩ := Tensor.zipWith?_eq_scalar (Value.zip_eq_ok_iff.mp hz) hx
  cases hs
  obtain ⟨rules, p, o, -, ho, hrules, -⟩ := Value.combine_eq_scalar hu rfl
  have hdensity : rules = .density := hrules.trans (Value.density_join _)
  exact ⟨o, c, hdensity ▸ ho, hq⟩

/-- If an affine map takes an array to a scalar, then also the array is a scalar. -/
theorem operands_of_affine_forward {t : Tensor ℝ}
    (h : (affine offset slope).forward (.array .density t) = .ok x) (hx : x.shape = []) :
    t.shape = [] ∧ ∃ o c, offset.operand .density = .ok (.scalar o) ∧
      slope.operand .density = .ok (.scalar c) := by
  rw [forward, bind_eq_ok] at h
  obtain ⟨u, hu, hsum⟩ := h
  rw [Value.mul_array_left] at hu
  obtain ⟨v, rfl⟩ := Value.combine_isDensity hu (Or.inl ⟨_, rfl⟩)
  rw [Value.add_array_right] at hsum
  obtain ⟨rules, o, p, ho, hp, hrules, -⟩ := Value.combine_eq_scalar hsum hx
  obtain rfl : rules = .density := hrules.trans (Value.join_density _)
  cases hp
  obtain ⟨rules, a, c, ha, hc, hrules, -⟩ := Value.combine_eq_scalar hu rfl
  obtain rfl : rules = .density := hrules.trans (Value.density_join _)
  cases ha
  exact ⟨rfl, o, c, ho, hc⟩

end Bijection

/-! ## Transforms of supports -/

/-- The bounds of a support are not the same number. -/
def Support.Proper (s : Support ℝ) : Prop :=
  ∀ lower ∈ s.lower, ∀ upper ∈ s.upper, ∀ a, lower.real? = some a → upper.real? ≠ some a

namespace Transform

variable {s : Support ℝ} {t : Transform ℝ} {lower upper x : Value ℝ} {y : ℝ}

/-- The reversal of the sign is smooth. -/
theorem smooth_reflection :
    (reflection : Bijection ℝ).Smooth (fun y => (y - 0) / -1) fun _ => 1 / -1 := by
  refine Bijection.Smooth.affine ?_ (Or.inl ?_) (by norm_num)
  · change Except.ok (Tensor.scalar (Scalar.ofInt 0)) = _
    simp
  · simp

/-- The transform of a half-line, after its simple part has been taken back to a scalar. -/
theorem exists_smooth_of_affine {F D : ℝ → ℝ} {outer : Bijection ℝ} {offset : Value ℝ} {c : ℝ}
    (houter : outer.Smooth F D) (hc : c ≠ 0)
    (h : (Bijection.compose outer (.affine offset (.real c))).backward (.scalar y) = .ok x)
    (hx : x.shape = []) :
    ∃ G E, (Bijection.compose outer (.affine offset (.real c))).Smooth G E := by
  rw [Bijection.backward, houter.backward, ok_bind] at h
  obtain ⟨o, -, ho, -⟩ := Bijection.operands_of_affine h hx
  exact ⟨_, _, (Bijection.Smooth.affine ho (Or.inl rfl) hc).compose houter⟩

/-- The transform of an interval whose bounds are different numbers. -/
theorem exists_smooth_of_generalLogit (h : generalLogit lower upper = .ok t)
    (hproper : ∀ a, lower.real? = some a → upper.real? ≠ some a)
    (hback : t.map.backward (.scalar y) = .ok x) (hx : x.shape = []) :
    ∃ F D, t.map.Smooth F D := by
  simp only [generalLogit, bind_eq_ok, pure_eq_ok] at h
  obtain ⟨width, hwidth, offset, -, slope, hslope, rfl⟩ := h
  change ((Bijection.logit.compose (.affine offset slope)).backward (.scalar y)) = _ at hback
  rw [Bijection.backward, Bijection.Smooth.logit.backward, ok_bind] at hback
  obtain ⟨o, c, ho, hc⟩ := Bijection.operands_of_affine hback hx
  obtain ⟨a, w, ha, hw, rfl, hform⟩ := Value.quotient_eq_scalar hslope hc
  cases ha
  have hw0 : w ≠ 0 := by
    rintro rfl
    obtain ⟨a, hupper, hlower⟩ := Value.eq_of_sub_eq_zero hwidth hw
    exact hproper a hlower hupper
  have hc0 : (Scalar.ofInt 1 : ℝ) / w ≠ 0 := by
    rw [ofInt_eq]
    exact div_ne_zero (by norm_num) hw0
  exact ⟨_, _, (Bijection.Smooth.affine ho hform hc0).compose Bijection.Smooth.logit⟩

/-- A transform of a support that takes a coordinate to a number is smooth, if the bounds are not
the same number. -/
theorem exists_smooth_of_ofSupport (h : ofSupport s = .ok t) (hproper : s.Proper)
    (hback : t.map.backward (.scalar y) = .ok x) (hx : x.shape = []) :
    ∃ F D, t.map.Smooth F D := by
  obtain ⟨lower | lower, upper | upper⟩ := s
  · cases h
    exact ⟨_, _, Bijection.Smooth.identity⟩
  · unfold ofSupport at h
    dsimp only at h
    split at h
    · cases h
      exact ⟨_, _, smooth_reflection.compose (Bijection.Smooth.log.compose smooth_reflection)⟩
    · cases h
      exact exists_smooth_of_affine (Bijection.Smooth.log.compose smooth_reflection) (by simp)
        hback hx
  · unfold ofSupport at h
    dsimp only at h
    split at h
    · cases h
      exact ⟨_, _, Bijection.Smooth.log⟩
    · cases h
      exact exists_smooth_of_affine Bijection.Smooth.log (by simp) hback hx
  · unfold ofSupport at h
    dsimp only at h
    split at h
    · cases h
      exact ⟨_, _, Bijection.Smooth.logit⟩
    · exact exists_smooth_of_generalLogit h (hproper lower rfl upper rfl) hback hx

end Transform

end BayesGraph
