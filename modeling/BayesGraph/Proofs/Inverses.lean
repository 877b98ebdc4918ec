import Mathlib
import BayesGraph.Proofs.Bounds

/-!
# Transforms and their inverses

Over the exact reals, both directions of a transform are functions of one real, for known reals as
for computed ones (`Bijection.Exact`). The transform of a support takes the line into the support
and back; between different bounds the two functions are inverse, and every point strictly inside
is reached (`Transform.exists_inverts`). Bounds that are known while others were computed give the
same functions, although the transform may be a simpler one.
-/

set_option autoImplicit false

namespace BayesGraph

open Outcome ExactReals

/-! ## Products and sizes of numbers -/

namespace Value

variable {v slope : Value ℝ} {x : Value ℝ} {a b c : ℝ}

/-- A real is multiplied by a number. -/
theorem Denotes.mul (hv : v.Denotes a) (hx : Alike (.scalar b) x) :
    ∃ u, x.mul v = .ok u ∧ Alike (.scalar (b * a)) u := by
  have hmul : (scalar b).mul v = .ok (.scalar (b * a)) :=
    (mul_array_left _ _ _).trans (combine_scalar_left hv.operand)
  exact follows_mul hx (.same hv.settled) _ hmul

/-- A function of a real is applied to a number. -/
theorem Denotes.lift (hv : v.Denotes a) (f : ℝ → ℝ) :
    v.lift .density f = .ok (.scalar (f a)) := by
  have hargument : v.argument .density = .ok (.scalar a) := by
    match v with
    | .number (.int _) | .number (.real _) | .word _ _ | .array _ _ => exact hv.operand
    | .object d => exact absurd hv.operand (operand_object d _)
  unfold Value.lift
  rw [hargument]
  change Except.ok (array .density (.scalar (Rules.unary .density f a))) = _
  rw [ExactScalar.unary_eq]
  rfl

/-- The size of a computed integer fits its format, unless it has no opposite. -/
theorem denotes_size {w : Word} (h : w.toInt ≠ -2 ^ 63) :
    (Value.word .density (w.like w.toInt.natAbs) : Value ℝ).Denotes |(w.toInt : ℝ)| := by
  have hsize : (w.like w.toInt.natAbs).toInt = w.toInt.natAbs := by
    cases w with
    | signed n =>
      have hlow := n.le_toInt
      have hhigh := n.toInt_lt
      rw [Word.toInt] at h
      apply Word.toInt_like_signed
      rw [Word.fitsSigned_iff, Word.toInt]
      omega
    | unsigned n =>
      have hhigh := n.toNat_lt
      change ((UInt64.ofNat
        (((n.toNat : Int).natAbs : Int) % 18446744073709551616).toNat).toNat : Int) = _
      rw [UInt64.toNat_ofNat', Word.toInt]
      omega
  apply denotes_word
  change some (((w.like w.toInt.natAbs).toInt : Int) : ℝ) = _
  rw [hsize, Int.natCast_natAbs, Int.cast_abs]

/-- The size of a number that is not the integer without an opposite. -/
theorem Denotes.exists_size (hslope : slope.Denotes c)
    (hopposite : slope.integer? ≠ some (-2 ^ 63)) :
    ∃ size, Builtin.integral .density (fun n => (n.natAbs : Int)) Scalar.abs slope = .ok size ∧
      size.Denotes |c| := by
  have hword (w : Word) (hw : w.toInt ≠ -2 ^ 63) (hc : (w.toInt : ℝ) = c)
      (hcomputed : Builtin.computed .density slope = .ok (.word .density w)) :
      ∃ size, Builtin.integral .density (fun n => (n.natAbs : Int)) Scalar.abs slope = .ok size ∧
        size.Denotes |c| := by
    refine ⟨_, ?_, hc ▸ denotes_size hw⟩
    unfold Builtin.integral
    rw [hcomputed]
    rfl
  have hscalar (hcomputed : Builtin.computed .density slope = .ok (.scalar c)) :
      ∃ size, Builtin.integral .density (fun n => (n.natAbs : Int)) Scalar.abs slope = .ok size ∧
        size.Denotes |c| := by
    refine ⟨.scalar |c|, ?_, (alike_scalar _).denotes⟩
    unfold Builtin.integral
    rw [hcomputed]
    rfl
  match slope with
  | .number (.int n) =>
    have hfits : Word.fitsSigned n = true := holds_of_operand (m := 0) hslope.operand
    have hn : ((Word.signed 0).like n).toInt = n := Word.toInt_like_signed hfits
    have hc : (n : ℝ) = c := Option.some.inj hslope.real?_eq
    apply hword ((Word.signed 0).like n)
    · rw [hn]
      exact fun h => hopposite (congrArg some h)
    · rw [hn, hc]
    · change Builtin.computedInt .density n = _
      unfold Builtin.computedInt Word.signed?
      rw [if_pos hfits]
      rfl
  | .number (.real r) =>
    obtain rfl : r = c := Option.some.inj hslope.real?_eq
    exact hscalar rfl
  | .word r w =>
    obtain rfl : r = .density := hslope.settled
    exact hword w (fun h => hopposite (congrArg some h)) (Option.some.inj hslope.real?_eq) rfl
  | .array r t =>
    obtain rfl : r = .density := hslope.settled
    obtain rfl : t = .scalar c := Tensor.scalar?_eq_some hslope.real?_eq
    exact hscalar rfl
  | .object d => exact absurd hslope.operand (operand_object d _)

end Value

/-! ## Bijections -/

namespace Bijection

open Value

variable {b outer inner : Bijection ℝ} {offset slope x y x' y' : Value ℝ} {F G P Q : ℝ → ℝ}
  {o c : ℝ}

/-- Backward, the bijection is the function `F` of one real, and forward it is `G`. -/
structure Exact (b : Bijection ℝ) (F G : ℝ → ℝ) : Prop where
  backward : ∀ a y, Alike (.scalar a) y → ∃ x, b.backward y = .ok x ∧ Alike (.scalar (F a)) x
  forward : ∀ a x, Alike (.scalar a) x → ∃ y, b.forward x = .ok y ∧ Alike (.scalar (G a)) y
  logJacobian : ∀ a, ∃ s, ∀ y, Alike (.scalar a) y →
    ∃ u, b.logJacobian y = .ok u ∧ Alike (.scalar s) u

/-- A computed coordinate goes to a computed value. -/
theorem Exact.backward_scalar (h : b.Exact F G) (a : ℝ) :
    b.backward (.scalar a) = .ok (.scalar (F a)) := by
  obtain ⟨x, hx, halike⟩ := h.backward a _ (alike_scalar a)
  cases halike with
  | same _ => exact hx
  | known _ =>
    obtain ⟨t, ht⟩ := backward_isDensity b hx ⟨_, rfl⟩
    cases ht

/-- The slope at a computed real is a computed real. -/
theorem Exact.logJacobian_scalar (h : b.Exact F G) (a : ℝ) :
    ∃ s, b.logJacobian (.scalar a) = .ok (.scalar s) := by
  obtain ⟨s, hs⟩ := h.logJacobian a
  obtain ⟨u, hu, halike⟩ := hs _ (alike_scalar a)
  cases halike with
  | same _ => exact ⟨s, hu⟩
  | known _ =>
    obtain ⟨t, ht⟩ := logJacobian_isDensity b hu ⟨_, rfl⟩
    cases ht

/-- The identity is exact. -/
theorem Exact.identity : (identity : Bijection ℝ).Exact id id where
  backward _ y h := ⟨y, rfl, h⟩
  forward _ x h := ⟨x, rfl, h⟩
  logJacobian a := by
    refine ⟨Scalar.ofInt 0, fun y h => ⟨_, ?_, alike_scalar _⟩⟩
    rw [Bijection.logJacobian, toTensor_alike h]
    rfl

/-- The logarithm is exact, with the exponential as its inverse. -/
theorem Exact.log : (log : Bijection ℝ).Exact Real.exp Real.log where
  backward _ _ h := ⟨_, lift_alike Scalar.exp h, alike_scalar _⟩
  forward _ _ h := ⟨_, lift_alike Scalar.log h, alike_scalar _⟩
  logJacobian a := ⟨a, fun y h => ⟨y, rfl, h⟩⟩

/-- The logit is exact, with the logistic function as its inverse. -/
theorem Exact.logit : (logit : Bijection ℝ).Exact Real.sigmoid fun x => Real.log (x / (1 - x)) where
  backward a y h := ⟨_, lift_alike Scalar.logistic h, alike_scalar _⟩
  forward a x h := by
    refine ⟨_, lift_alike Scalar.logit h, ?_⟩
    have hlogit : Scalar.logit a = Real.log (a / (1 - a)) := by
      change Real.log (a / (Scalar.ofInt 1 - a)) = _
      rw [ofInt_eq, Int.cast_one]
    rw [hlogit]
    exact alike_scalar _
  logJacobian a := by
    refine ⟨Scalar.logLogistic a + Scalar.logLogistic (-a), fun y h => ⟨_, ?_, alike_scalar _⟩⟩
    rw [Bijection.logJacobian, Bijection.apply, Bijection.apply, lift_alike _ h,
      lift_alike _ (neg_alike h)]
    exact scalar_add_scalar _ _

/-- An affine map with numbers of any kind, the slope not being zero. -/
theorem Exact.affine_of_denotes (ho : offset.Denotes o) (hslope : slope.Denotes c) (hc : c ≠ 0)
    (hopposite : slope.integer? ≠ some (-2 ^ 63)) :
    (affine offset slope).Exact (fun y => (y - o) / c) fun x => o + x * c where
  backward a y h := by
    obtain ⟨u, hu, halike⟩ := ho.sub h
    obtain ⟨x, hx, halike⟩ := halike.denotes.quotient hslope hc
    refine ⟨x, ?_, halike⟩
    rw [Bijection.backward, hu, ok_bind, hx]
  forward a x h := by
    obtain ⟨u, hu, halike⟩ := hslope.mul h
    obtain ⟨y, hy, halike⟩ := ho.add halike
    refine ⟨y, ?_, halike⟩
    rw [Bijection.forward, hu, ok_bind, hy]
  logJacobian a := by
    obtain ⟨size, hsize, hdenotes⟩ := hslope.exists_size hopposite
    refine ⟨-Real.log |c| * Scalar.ofInt 1, fun y h => ⟨_, ?_, alike_scalar _⟩⟩
    rw [Bijection.logJacobian, hsize, ok_bind, Bijection.apply, hdenotes.lift Scalar.log, ok_bind,
      toTensor_alike h]
    exact scalar_mul_scalar _ _

/-- An affine map whose slope is a real. -/
theorem Exact.affine (ho : offset.Denotes o) (hslope : Alike (.scalar c) slope) (hc : c ≠ 0) :
    (affine offset slope).Exact (fun y => (y - o) / c) fun x => o + x * c := by
  apply Exact.affine_of_denotes ho hslope.denotes hc
  cases hslope <;> simp [Value.integer?, Value.scalar, Value.real]

/-- A bijection is exact with the same functions in another form. -/
theorem Exact.congr (h : b.Exact F G) (hF : ∀ y, F y = P y) (hG : ∀ x, G x = Q x) :
    b.Exact P Q := by
  obtain rfl : F = P := funext hF
  obtain rfl : G = Q := funext hG
  exact h

/-- A composition, in both directions. -/
theorem Exact.compose (hinner : inner.Exact F G) (houter : outer.Exact P Q) :
    (Bijection.compose outer inner).Exact (F ∘ P) (Q ∘ G) where
  backward a y h := by
    obtain ⟨u, hu, halike⟩ := houter.backward a y h
    obtain ⟨x, hx, halike⟩ := hinner.backward _ u halike
    refine ⟨x, ?_, halike⟩
    rw [Bijection.backward, hu, ok_bind, hx]
  forward a x h := by
    obtain ⟨u, hu, halike⟩ := hinner.forward a x h
    obtain ⟨y, hy, halike⟩ := houter.forward _ u halike
    refine ⟨y, ?_, halike⟩
    rw [Bijection.forward, hu, ok_bind, hy]
  logJacobian a := by
    obtain ⟨s, houterSlope⟩ := houter.logJacobian a
    obtain ⟨s', hinnerSlope⟩ := hinner.logJacobian (P a)
    refine ⟨s + s', fun y h => ?_⟩
    obtain ⟨u, hu, hs⟩ := houterSlope y h
    obtain ⟨v, hv, halike⟩ := houter.backward a y h
    obtain ⟨u', hu', hs'⟩ := hinnerSlope v halike
    obtain ⟨w, hw, halike⟩ := add_alike hs hs'
    refine ⟨w, ?_, halike⟩
    rw [Bijection.logJacobian, hu, ok_bind, hv, ok_bind, hu', ok_bind, hw]

end Bijection

/-! ## Supports -/

namespace Support

/-- The bounds that there are. -/
def bounds (s : Support ℝ) : List (Value ℝ) := s.lower.toList ++ s.upper.toList

/-- A real lies strictly between the bounds. -/
structure Inside (s : Support ℝ) (x : ℝ) : Prop where
  lower : ∀ v ∈ s.lower, ∃ a, v.real? = some a ∧ a < x
  upper : ∀ v ∈ s.upper, ∃ b, v.real? = some b ∧ x < b

/-- Arithmetic on bounds is exact although integers have 64 bits: no bound is the integer without an
opposite or has no sign, and beside a computed integer no difference of bounds wraps around. -/
structure Exact (s : Support ℝ) : Prop where
  opposite : ∀ v ∈ s.bounds, v.real? ≠ some (-2 ^ 63)
  signed : ∀ r n, .word r (.unsigned n) ∉ s.bounds
  small : ∀ r w, .word r w ∈ s.bounds → ∀ v ∈ s.bounds, ∀ a, v.real? = some a → |a| < 2 ^ 62

/-- No exact bound is the integer without an opposite. -/
theorem Exact.integer?_ne {s : Support ℝ} (h : s.Exact) {v : Value ℝ} (hv : v ∈ s.bounds) :
    v.integer? ≠ some (-2 ^ 63) := by
  refine Value.integer?_ne_of_real? fun hreal => h.opposite v hv (hreal.trans ?_)
  norm_num

/-- Differences of exact bounds do not wrap around. -/
theorem Exact.near {s : Support ℝ} (h : s.Exact) {v w : Value ℝ} (hv : v ∈ s.bounds)
    (hw : w ∈ s.bounds) : Value.Near v w where
  signed r n := by
    constructor
    · rintro rfl
      exact h.signed r n hv
    · rintro rfl
      exact h.signed r n hw
  small r u hword a b ha hb := by
    have hmem : .word r u ∈ s.bounds := by
      rcases hword with rfl | rfl
      · exact hv
      · exact hw
    exact ⟨h.small r u hmem v hv a ha, h.small r u hmem w hw b hb⟩

end Support

/-! ## Inverse functions of one real -/

/-- The logistic function of a real has this real as logit. -/
theorem log_sigmoid_ratio (y : ℝ) : Real.log (y.sigmoid / (1 - y.sigmoid)) = y := by
  have hpos := Real.sigmoid_pos y
  rw [← Real.sigmoid_neg, Real.sigmoid_def, Real.sigmoid_def, neg_neg]
  have hratio : (1 + Real.exp (-y))⁻¹ / (1 + Real.exp y)⁻¹ = Real.exp y := by
    have hexp : Real.exp (-y) = (Real.exp y)⁻¹ := Real.exp_neg y
    have hne := Real.exp_pos y
    rw [hexp]
    field_simp
    ring
  rw [hratio, Real.log_exp]

/-- The logit of a probability is taken back to it. -/
theorem sigmoid_log_ratio {p : ℝ} (h0 : 0 < p) (h1 : p < 1) :
    Real.sigmoid (Real.log (p / (1 - p))) = p := by
  have hq : 0 < 1 - p := sub_pos.mpr h1
  rw [Real.sigmoid_def, Real.exp_neg, Real.exp_log (div_pos h0 hq)]
  field_simp
  ring

namespace Transform

open Value Bijection

variable {lower upper offset slope : Value ℝ} {l u o c : ℝ} {n : Int}

/-- A bound that is known to be an integer is this number. -/
theorem real?_of_isKnown (h : isKnown lower n = true) : lower.real? = some (n : ℝ) := by
  unfold isKnown at h
  split at h
  · next k =>
    cases k with
    | int m => exact congrArg some ((numbersEq_iff rfl rfl).mp h)
    | real x => exact congrArg some ((numbersEq_iff rfl rfl).mp h)
  · cases h

/-- A bound that is known to be zero, and its opposite. -/
theorem denotes_of_isKnown (h : isKnown lower 0 = true) :
    lower.Denotes 0 ∧ lower.neg.Denotes (-0) := by
  unfold isKnown at h
  split at h
  · next k =>
    cases k with
    | int m =>
      have hm : (m : ℝ) = ((0 : Int) : ℝ) := (numbersEq_iff rfl rfl).mp h
      obtain rfl : m = 0 := by exact_mod_cast hm
      have hzero : (Value.int 0 : Value ℝ).Denotes 0 := by
        have hoperand := operand_int (n := 0) (by decide)
        rw [Int.cast_zero] at hoperand
        exact ⟨trivial, hoperand⟩
      rw [neg_zero]
      exact ⟨hzero, hzero⟩
    | real x =>
      obtain rfl : x = ((0 : Int) : ℝ) := (numbersEq_iff rfl rfl).mp h
      rw [Int.cast_zero]
      exact ⟨⟨trivial, rfl⟩, ⟨trivial, rfl⟩⟩
  · cases h

/-- The reversal of the sign is exact. -/
theorem exact_reflection : (reflection : Bijection ℝ).Exact (fun y => -y) fun x => -x := by
  have hzero : (Value.real (Scalar.ofInt 0) : Value ℝ).Denotes 0 := by
    rw [ofInt_eq, Int.cast_zero]
    exact ⟨trivial, rfl⟩
  have hslope : Alike (.scalar (-1)) (.real (Scalar.ofInt (-1))) := by
    rw [ofInt_eq, Int.cast_neg, Int.cast_one]
    exact .known _
  refine (Exact.affine hzero hslope (by norm_num)).congr (fun y => ?_) fun x => ?_
  · ring
  · ring

/-- The transform of the numbers above a bound is exact. -/
theorem exact_shiftedLog (hneg : lower.neg.Denotes (-l)) :
    (shiftedLog lower).map.Exact (fun y => l + Real.exp y) fun x => Real.log (x - l) := by
  have hone : Alike (.scalar (1 : ℝ)) (.real (Scalar.ofInt 1)) := by
    rw [ofInt_eq, Int.cast_one]
    exact .known _
  refine ((Exact.affine hneg hone one_ne_zero).compose Exact.log).congr (fun y => ?_) fun x => ?_
  · simp [add_comm]
  · simp [neg_add_eq_sub]

/-- The transform of the negative numbers is exact. -/
theorem exact_negLog :
    (negLog : Transform ℝ).map.Exact (fun y => -Real.exp (-y)) fun x => -Real.log (-x) :=
  exact_reflection.compose (Exact.log.compose exact_reflection)

/-- The transform of the numbers below a bound is exact. -/
theorem exact_shiftedNegLog (hu : upper.Denotes u) :
    (shiftedNegLog upper).map.Exact (fun y => u - Real.exp (-y)) fun x => -Real.log (u - x) := by
  have hone : Alike (.scalar (-1 : ℝ)) (.real (Scalar.ofInt (-1))) := by
    rw [ofInt_eq, Int.cast_neg, Int.cast_one]
    exact .known _
  refine ((Exact.affine hu hone (by norm_num)).compose
    (Exact.log.compose exact_reflection)).congr (fun y => ?_) fun x => ?_
  · simp only [Function.comp_apply]
    ring
  · simp [sub_eq_add_neg]

/-- The transform of the numbers above `l`. -/
theorem exact_ofLower (hneg : lower.neg.Denotes (-l)) (hl : lower.real? = some l) :
    ∃ t, ofSupport ⟨some lower, none⟩ = .ok t ∧
      t.map.Exact (fun y => l + Real.exp y) fun x => Real.log (x - l) := by
  unfold ofSupport
  dsimp only
  split
  · next hzero =>
    obtain rfl : l = ((0 : Int) : ℝ) := Option.some.inj (hl.symm.trans (real?_of_isKnown hzero))
    exact ⟨log, rfl, Exact.log.congr (by simp) (by simp)⟩
  · exact ⟨shiftedLog lower, rfl, exact_shiftedLog hneg⟩

/-- The transform of the numbers below `u`. -/
theorem exact_ofUpper (hu : upper.Denotes u) :
    ∃ t, ofSupport ⟨none, some upper⟩ = .ok t ∧
      t.map.Exact (fun y => u - Real.exp (-y)) fun x => -Real.log (u - x) := by
  unfold ofSupport
  dsimp only
  split
  · next hzero =>
    obtain rfl : u = ((0 : Int) : ℝ) :=
      Option.some.inj (hu.real?_eq.symm.trans (real?_of_isKnown hzero))
    exact ⟨negLog, rfl, exact_negLog.congr (by simp) (by simp)⟩
  · exact ⟨shiftedNegLog upper, rfl, exact_shiftedNegLog hu⟩

/-- The map of the interval from `l` to `u`, by its affine part. -/
theorem exact_logit (hlu : u ≠ l) (hoffset : offset.Denotes (-l / (u - l)))
    (hslope : Alike (.scalar (1 / (u - l))) slope) :
    (Bijection.logit.compose (.affine offset slope)).Exact
      (fun y => l + (u - l) * y.sigmoid)
      fun x => Real.log ((x - l) / (u - l) / (1 - (x - l) / (u - l))) := by
  have hwidth : u - l ≠ 0 := sub_ne_zero.mpr hlu
  refine ((Exact.affine hoffset hslope (one_div_ne_zero hwidth)).compose Exact.logit).congr
    (fun y => ?_) fun x => ?_
  · simp only [Function.comp_apply]
    field_simp
    ring
  · have hpoint : -l / (u - l) + x * (1 / (u - l)) = (x - l) / (u - l) := by ring
    simp only [Function.comp_apply, hpoint]

/-- The map of an interval with numbers as bounds, if their difference is a number or both are known
integers. -/
theorem exists_generalLogit (hlower : lower.Denotes l) (hneg : lower.neg.Denotes (-l))
    (hupper : upper.Denotes u) (hlu : u ≠ l)
    (hwidth : (∃ w, upper.sub lower = .ok w ∧ w.Denotes (u - l)) ∨
      ∃ m n, upper = .int m ∧ lower = .int n) :
    ∃ offset slope,
      generalLogit lower upper = .ok ⟨.generalLogit, .compose .logit (.affine offset slope)⟩ ∧
      offset.Denotes (-l / (u - l)) ∧ Alike (.scalar (1 / (u - l))) slope := by
  have hne : u - l ≠ 0 := sub_ne_zero.mpr hlu
  have hone : (Value.real (Scalar.ofInt 1) : Value ℝ).Denotes 1 := by
    rw [ofInt_eq, Int.cast_one]
    exact ⟨trivial, rfl⟩
  obtain ⟨width, hsub, offset, ho, hoffset, slope, hc, hslope⟩ :
      ∃ width, upper.sub lower = .ok width ∧
        ∃ offset, lower.neg.quotient width = .ok offset ∧ offset.Denotes (-l / (u - l)) ∧
        ∃ slope, (Value.real (Scalar.ofInt 1)).quotient width = .ok slope ∧
          Alike (.scalar (1 / (u - l))) slope := by
    rcases hwidth with ⟨w, hsub, hw⟩ | ⟨m, n, rfl, rfl⟩
    · obtain ⟨offset, ho, hoffset⟩ := hneg.quotient hw hne
      obtain ⟨slope, hc, hslope⟩ := hone.quotient hw hne
      exact ⟨w, hsub, offset, ho, hoffset.denotes, slope, hc, hslope⟩
    · -- the width of known integers need not fit a word, but it is no larger than a double
      obtain rfl : (m : ℝ) = u := Option.some.inj hupper.real?_eq
      obtain rfl : (n : ℝ) = l := Option.some.inj hlower.real?_eq
      have hne : m - n ≠ 0 := by
        rw [sub_ne_zero]
        exact_mod_cast hlu
      have hfitsm := holds_of_operand (m := 0) hupper.operand
      have hfitsn := holds_of_operand (m := 0) hlower.operand
      rw [Word.holds, Word.fitsSigned_iff] at hfitsm hfitsn
      refine ⟨.int (m - n), rfl, .real (((-n : Int) : ℝ) / ((m - n : Int) : ℝ)),
        int_quotient_int (by omega) hne, ?_, .real (Scalar.ofInt 1 / ((m - n : Int) : ℝ)),
        real_quotient_int (by omega) hne, ?_⟩
      · push_cast
        exact ⟨trivial, rfl⟩
      · rw [ofInt_eq]
        push_cast
        exact .known _
  refine ⟨offset, slope, ?_, hoffset, hslope⟩
  unfold generalLogit
  rw [hsub, ok_bind, ho, ok_bind, hc, ok_bind]
  rfl

/-- The transform of the interval from `l` to `u`. -/
theorem exact_ofBounds (hlower : lower.Denotes l) (hneg : lower.neg.Denotes (-l))
    (hupper : upper.Denotes u) (hlu : u ≠ l)
    (hwidth : (∃ w, upper.sub lower = .ok w ∧ w.Denotes (u - l)) ∨
      ∃ m n, upper = .int m ∧ lower = .int n) :
    ∃ t, ofSupport ⟨some lower, some upper⟩ = .ok t ∧ t.map.Exact (fun y => l + (u - l) * y.sigmoid)
      fun x => Real.log ((x - l) / (u - l) / (1 - (x - l) / (u - l))) := by
  unfold ofSupport
  dsimp only
  split
  · next hknown =>
    rw [Bool.and_eq_true] at hknown
    obtain rfl : l = ((0 : Int) : ℝ) :=
      Option.some.inj (hlower.real?_eq.symm.trans (real?_of_isKnown hknown.1))
    obtain rfl : u = ((1 : Int) : ℝ) :=
      Option.some.inj (hupper.real?_eq.symm.trans (real?_of_isKnown hknown.2))
    exact ⟨logit, rfl, Exact.logit.congr (by simp) (by simp)⟩
  · obtain ⟨offset, slope, ht, hoffset, hslope⟩ :=
      exists_generalLogit hlower hneg hupper hlu hwidth
    exact ⟨_, ht, exact_logit hlu hoffset hslope⟩

/-- The transform of an interval that takes a coordinate to a number: its bounds are numbers. -/
theorem exact_of_generalLogit {t : Transform ℝ} {y : ℝ} {x : Value ℝ}
    (h : generalLogit lower upper = .ok t) (hback : t.map.backward (.scalar y) = .ok x)
    (hx : x.shape = []) (hnear : Near upper lower)
    (hneg : lower.neg.real? = lower.real?.map (- ·))
    (hproper : ∀ a, lower.real? = some a → upper.real? ≠ some a) :
    ∃ l u, lower.real? = some l ∧ upper.real? = some u ∧ u ≠ l ∧
      t.map.Exact (fun y => l + (u - l) * y.sigmoid)
        fun x => Real.log ((x - l) / (u - l) / (1 - (x - l) / (u - l))) := by
  simp only [generalLogit, bind_eq_ok, pure_eq_ok] at h
  obtain ⟨width, hwidth, offset, ho, slope, hc, rfl⟩ := h
  change ((Bijection.logit.compose (.affine offset slope)).backward (.scalar y)) = _ at hback
  rw [Bijection.backward, Exact.logit.backward_scalar, ok_bind] at hback
  obtain ⟨o, c, hoffset, hslope⟩ := Bijection.operands_of_affine hback hx
  obtain ⟨a, w, ha, hw, rfl, hoform⟩ := quotient_eq_scalar ho hoffset
  obtain ⟨e, w', he, hw', rfl, hcform⟩ := quotient_eq_scalar hc hslope
  obtain rfl : w = w' := Option.some.inj (hw.symm.trans hw')
  obtain ⟨u, l, hu, hl, rfl⟩ := sub_eq_ok hwidth hw hnear
  have hlu : u ≠ l := fun heq => hproper l hl (heq ▸ hu)
  refine ⟨l, u, hl, hu, hlu, exact_logit hlu ?_ ?_⟩
  · rw [hneg, hl] at ha
    cases ha
    refine ⟨?_, hoffset⟩
    rcases hoform with rfl | rfl <;> trivial
  · obtain rfl : e = 1 := by
      have hone : (Scalar.ofInt 1 : ℝ) = e := Option.some.inj he
      rw [← hone, ofInt_eq, Int.cast_one]
    rcases hcform with rfl | rfl
    · exact .known _
    · exact alike_scalar _

/-- Bounds of an interval, one of which is a computed real, are operands. -/
theorem denotes_of_generalLogit {t : Transform ℝ} (h : generalLogit lower upper = .ok t)
    (hl : lower.real? = some l) (hu : upper.real? = some u)
    (hneg : lower.neg.real? = lower.real?.map (- ·)) (hlower : lower.Settled)
    (hupper : upper.Settled) (hcomputed : (∃ a, lower = .scalar a) ∨ ∃ b, upper = .scalar b) :
    lower.Denotes l ∧ lower.neg.Denotes (-l) ∧ upper.Denotes u := by
  simp only [generalLogit, bind_eq_ok, pure_eq_ok] at h
  obtain ⟨width, hwidth, offset, ho, -⟩ := h
  obtain ⟨s, t, hs, ht⟩ := operands_of_sub hwidth hupper hlower hcomputed.symm
  have hnegl : lower.neg.real? = some (-l) := by rw [hneg, hl, Option.map_some]
  refine ⟨denotes_of_operand hlower ht hl, ?_, denotes_of_operand hupper hs hu⟩
  rcases hcomputed with ⟨a, rfl⟩ | ⟨b, rfl⟩
  · exact denotes_of_operand hlower.neg rfl hnegl
  · have hcombine : (Value.scalar b).combine (· - ·) lower = .ok width :=
      (sub_array_left _ _ _).symm.trans hwidth
    obtain ⟨w, rfl⟩ := combine_isDensity hcombine (Or.inl ⟨_, rfl⟩)
    rw [quotient_array_right] at ho
    obtain ⟨q, hq, -⟩ := bind_eq_ok.mp ho
    exact denotes_of_operand hlower.neg hq hnegl

end Transform

/-- The same bounds in another form. -/
structure Support.Stands (s s' : Support ℝ) : Prop where
  lower : Option.Rel Value.Stands s.lower s'.lower
  upper : Option.Rel Value.Stands s.upper s'.upper

namespace Transform

open Value Bijection

variable {s s' : Support ℝ} {t : Transform ℝ} {x : Value ℝ} {y : ℝ}

/-- A transform of a support that takes a coordinate to a number is a function of one real, known
bounds give the same function, and the two directions are inverse. -/
structure Inverts (s s' : Support ℝ) (t : Transform ℝ) (F G : ℝ → ℝ) : Prop where
  exact : t.map.Exact F G
  known : ∃ t', ofSupport s' = .ok t' ∧ t'.map.Exact F G
  left : ∀ y, G (F y) = y
  right : ∀ x, s.Inside x → F (G x) = x

/-- The transform of the numbers above a bound is invertible, for another form of the bound, too. -/
theorem Inverts.ofLower {lower lower' : Value ℝ} {l : ℝ} (hl : lower.real? = some l)
    (hneg : lower.neg.Denotes (-l)) (hneg' : lower'.neg.Denotes (-l))
    (hlower : Value.Stands lower lower') (h : ofSupport ⟨some lower, none⟩ = .ok t) :
    Inverts ⟨some lower, none⟩ ⟨some lower', none⟩ t (fun y => l + Real.exp y)
      fun x => Real.log (x - l) where
  exact := by
    obtain ⟨t₁, ht₁, hexact⟩ := exact_ofLower hneg hl
    cases ht₁.symm.trans h
    exact hexact
  known := exact_ofLower hneg' (hlower.real?_eq.trans hl)
  left y := by simp
  right x hx := by
    obtain ⟨a, ha, hax⟩ := hx.lower lower rfl
    cases hl.symm.trans ha
    simp [Real.exp_log (sub_pos.mpr hax)]

/-- The transform of the numbers below a bound is invertible, for another form of the bound, too. -/
theorem Inverts.ofUpper {upper upper' : Value ℝ} {u : ℝ} (hu : upper.Denotes u)
    (hupper : Value.Stands upper upper') (h : ofSupport ⟨none, some upper⟩ = .ok t) :
    Inverts ⟨none, some upper⟩ ⟨none, some upper'⟩ t (fun y => u - Real.exp (-y))
      fun x => -Real.log (u - x) where
  exact := by
    obtain ⟨t₁, ht₁, hexact⟩ := exact_ofUpper hu
    cases ht₁.symm.trans h
    exact hexact
  known := exact_ofUpper (hupper.denotes hu)
  left y := by simp
  right x hx := by
    obtain ⟨b, hb, hxb⟩ := hx.upper upper rfl
    cases hu.real?_eq.symm.trans hb
    simp [Real.exp_log (sub_pos.mpr hxb)]

/-- The functions of an interval are inverse. -/
theorem logit_left {l u : ℝ} (hlu : u ≠ l) (y : ℝ) :
    Real.log ((l + (u - l) * y.sigmoid - l) / (u - l) /
      (1 - (l + (u - l) * y.sigmoid - l) / (u - l))) = y := by
  have hpoint : (l + (u - l) * y.sigmoid - l) / (u - l) = y.sigmoid := by
    rw [add_sub_cancel_left, mul_div_cancel_left₀ _ (sub_ne_zero.mpr hlu)]
  rw [hpoint, log_sigmoid_ratio]

/-- The logit over an interval is taken back to the number. -/
theorem logit_right {l u x : ℝ} (hl : l < x) (hu : x < u) :
    l + (u - l) * (Real.log ((x - l) / (u - l) / (1 - (x - l) / (u - l)))).sigmoid = x := by
  have hwidth : 0 < u - l := by linarith
  have hpos : 0 < (x - l) / (u - l) := div_pos (by linarith) hwidth
  have hlt : (x - l) / (u - l) < 1 := by
    rw [div_lt_one hwidth]
    linarith
  rw [sigmoid_log_ratio hpos hlt, mul_div_cancel₀ _ hwidth.ne']
  ring

/-- The transform of an interval is invertible, for other forms of the bounds, too. -/
theorem Inverts.ofBounds {lower lower' upper upper' : Value ℝ} {l u : ℝ}
    (hl : lower.real? = some l) (hu : upper.real? = some u) (hlu : u ≠ l)
    (hexact : t.map.Exact (fun y => l + (u - l) * y.sigmoid)
      fun x => Real.log ((x - l) / (u - l) / (1 - (x - l) / (u - l))))
    (hknown : ∃ t', ofSupport ⟨some lower', some upper'⟩ = .ok t' ∧
      t'.map.Exact (fun y => l + (u - l) * y.sigmoid)
        fun x => Real.log ((x - l) / (u - l) / (1 - (x - l) / (u - l)))) :
    Inverts ⟨some lower, some upper⟩ ⟨some lower', some upper'⟩ t
      (fun y => l + (u - l) * y.sigmoid)
      fun x => Real.log ((x - l) / (u - l) / (1 - (x - l) / (u - l))) where
  exact := hexact
  known := hknown
  left := logit_left hlu
  right x hx := by
    obtain ⟨a, ha, hax⟩ := hx.lower lower rfl
    obtain ⟨b, hb, hxb⟩ := hx.upper upper rfl
    cases hl.symm.trans ha
    cases hu.symm.trans hb
    exact logit_right hax hxb

/-- The lower bound of a half-line whose transform takes a coordinate to a number. -/
theorem denotes_of_ofLower {lower : Value ℝ} (h : ofSupport ⟨some lower, none⟩ = .ok t)
    (hback : t.map.backward (.scalar y) = .ok x) (hx : x.shape = []) (hsettled : lower.Settled)
    (hneg : lower.neg.real? = lower.real?.map (- ·)) :
    ∃ l, lower.real? = some l ∧ lower.neg.Denotes (-l) := by
  unfold ofSupport at h
  dsimp only at h
  split at h
  · next hzero =>
    obtain ⟨hlower, hopposite⟩ := denotes_of_isKnown hzero
    exact ⟨0, hlower.real?_eq, hopposite⟩
  · cases h
    change (Bijection.log.compose (.affine lower.neg _)).backward (.scalar y) = .ok x at hback
    rw [Bijection.backward, Exact.log.backward_scalar, ok_bind] at hback
    obtain ⟨o, c, ho, -⟩ := Bijection.operands_of_affine hback hx
    have hopposite := real?_of_operand ho
    rw [hneg] at hopposite
    obtain ⟨l, hl, rfl⟩ := Option.map_eq_some_iff.mp hopposite
    exact ⟨l, hl, hsettled.neg, ho⟩

/-- The upper bound of a half-line whose transform takes a coordinate to a number. -/
theorem denotes_of_ofUpper {upper : Value ℝ} (h : ofSupport ⟨none, some upper⟩ = .ok t)
    (hback : t.map.backward (.scalar y) = .ok x) (hx : x.shape = []) (hsettled : upper.Settled) :
    ∃ u, upper.Denotes u := by
  unfold ofSupport at h
  dsimp only at h
  split at h
  · next hzero => exact ⟨0, (denotes_of_isKnown hzero).1⟩
  · cases h
    change ((Bijection.compose reflection .log).compose (.affine upper _)).backward (.scalar y) =
      .ok x at hback
    rw [Bijection.backward, (Exact.log.compose exact_reflection).backward_scalar, ok_bind] at hback
    obtain ⟨o, c, ho, -⟩ := Bijection.operands_of_affine hback hx
    exact ⟨o, hsettled, ho⟩

/-- The transform of an interval between different bounds. -/
theorem exists_inverts_ofBounds {lower lower' upper upper' : Value ℝ}
    (h : ofSupport ⟨some lower, some upper⟩ = .ok t)
    (hback : t.map.backward (.scalar y) = .ok x) (hx : x.shape = [])
    (hproper : ∀ a, lower.real? = some a → upper.real? ≠ some a)
    (hneg : lower.neg.real? = lower.real?.map (- ·)) (hnear : Near upper lower)
    (hnear' : Near upper' lower') (hopposite : lower'.integer? ≠ some (-2 ^ 63))
    (hlower : Value.Stands lower lower') (hupper : Value.Stands upper upper') :
    ∃ F G, Inverts ⟨some lower, some upper⟩ ⟨some lower', some upper'⟩ t F G := by
  have hof := h
  unfold ofSupport at h
  dsimp only at h
  split at h
  · next hknown =>
    cases h
    rw [Bool.and_eq_true] at hknown
    have hlower' : lower' = lower := by
      refine hlower.eq_or_scalar.resolve_right ?_
      rintro ⟨a, rfl⟩
      cases hknown.1
    have hupper' : upper' = upper := by
      refine hupper.eq_or_scalar.resolve_right ?_
      rintro ⟨b, rfl⟩
      cases hknown.2
    refine ⟨_, _, Inverts.ofBounds (real?_of_isKnown hknown.1) (real?_of_isKnown hknown.2)
      (by norm_num) (Exact.logit.congr (by simp) (by simp)) ?_⟩
    rw [hlower', hupper']
    exact ⟨logit, hof, Exact.logit.congr (by simp) (by simp)⟩
  · obtain ⟨l, u, hl, hu, hlu, hexact⟩ := exact_of_generalLogit h hback hx hnear hneg hproper
    refine ⟨_, _, Inverts.ofBounds hl hu hlu hexact ?_⟩
    by_cases hsame : lower' = lower ∧ upper' = upper
    · obtain ⟨rfl, rfl⟩ := hsame
      exact ⟨t, hof, hexact⟩
    · have hcomputed : (∃ a, lower = .scalar a) ∨ ∃ b, upper = .scalar b := by
        rcases hlower.eq_or_scalar with hl' | hscalar
        · rcases hupper.eq_or_scalar with hu' | hscalar
          · exact absurd ⟨hl', hu'⟩ hsame
          · exact Or.inr hscalar
        · exact Or.inl hscalar
      obtain ⟨hlower', hneg', hupper'⟩ := denotes_of_generalLogit h hl hu hneg
        hlower.settled_left hupper.settled_left hcomputed
      have hwidth := (hupper.denotes hupper').exists_sub (hlower.denotes hlower') hnear'
      exact exact_ofBounds (hlower.denotes hlower')
        (hlower.denotes_neg hneg' hopposite fun r n => (hnear'.signed r n).2)
        (hupper.denotes hupper') hlu hwidth

/-- An affine map whose offset and slope are operands takes computed reals to computed reals. -/
theorem backward_of_operands {offset slope : Value ℝ} {o c : ℝ}
    (ho : offset.operand .density = .ok (.scalar o))
    (hc : slope.operand .density = .ok (.scalar c)) (y : ℝ) :
    (Bijection.affine offset slope).backward (.scalar y) = .ok (.scalar ((y - o) / c)) := by
  have hsub : (Value.scalar y).sub offset = .ok (.scalar (y - o)) :=
    (Value.sub_array_left _ _ _).trans (Value.combine_scalar_left ho)
  rw [Bijection.backward, hsub, ok_bind]
  change (Value.scalar (y - o)).divide .density slope = _
  unfold divide
  rw [hc]
  rfl

/-- A composition with an affine map that takes one number to a coordinate takes all coordinates to
numbers. -/
theorem exists_backward_of_affine {outer : Bijection ℝ} {F G : ℝ → ℝ} {offset slope u : Value ℝ}
    {a : ℝ} (houter : outer.Exact F G)
    (hshape : ∀ v w, outer.forward (.array .density v) = .ok w → w.shape = [] → v.shape = [])
    (h : (Bijection.compose outer (.affine offset slope)).forward (.scalar a) = .ok u)
    (hu : u.shape = []) (y : ℝ) :
    ∃ x, (Bijection.compose outer (.affine offset slope)).backward (.scalar y) =
      .ok (.scalar x) := by
  rw [Bijection.forward, bind_eq_ok] at h
  obtain ⟨w, hw, h⟩ := h
  obtain ⟨v, rfl⟩ := Bijection.forward_isDensity _ hw ⟨_, rfl⟩
  obtain ⟨-, o, c, ho, hc⟩ := Bijection.operands_of_affine_forward hw (hshape v u h hu)
  refine ⟨(F y - o) / c, ?_⟩
  rw [Bijection.backward, houter.backward_scalar, ok_bind, backward_of_operands ho hc]

/-- A function that is applied entry by entry keeps the shape. -/
theorem shape_of_apply {f : ℝ → ℝ} {v : Tensor ℝ} {w : Value ℝ}
    (h : Bijection.apply f (.array .density v) = .ok w) (hw : w.shape = []) : v.shape = [] := by
  cases h
  exact hw

/-- The transform of a support that takes one number to a coordinate takes all coordinates to
numbers. -/
theorem exists_backward_of_forward {u : Value ℝ} {a : ℝ} (h : ofSupport s = .ok t)
    (hforward : t.map.forward (.scalar a) = .ok u) (hu : u.shape = []) (y : ℝ) :
    ∃ x, t.map.backward (.scalar y) = .ok (.scalar x) := by
  obtain ⟨lower | lower, upper | upper⟩ := s
  · cases h
    exact ⟨y, rfl⟩
  · unfold ofSupport at h
    dsimp only at h
    split at h <;> cases h
    · exact ⟨_, (exact_reflection.compose (Exact.log.compose exact_reflection)).backward_scalar y⟩
    · refine exists_backward_of_affine (Exact.log.compose exact_reflection) ?_ hforward hu y
      intro v w h hw
      rw [Bijection.forward, bind_eq_ok] at h
      obtain ⟨p, hp, h⟩ := h
      cases hp
      exact (Bijection.operands_of_affine_forward h hw).1
  · unfold ofSupport at h
    dsimp only at h
    split at h <;> cases h
    · exact ⟨_, Exact.log.backward_scalar y⟩
    · exact exists_backward_of_affine Exact.log (fun _ _ => shape_of_apply) hforward hu y
  · unfold ofSupport at h
    dsimp only at h
    split at h
    · cases h
      exact ⟨_, Exact.logit.backward_scalar y⟩
    · simp only [generalLogit, bind_eq_ok, pure_eq_ok] at h
      obtain ⟨width, -, offset, -, slope, -, rfl⟩ := h
      exact exists_backward_of_affine Exact.logit (fun _ _ => shape_of_apply) hforward hu y

/-- A transform that takes a coordinate to a number is invertible, for bounds in one form as for
bounds in another one, if the bounds of its support are not the same number. -/
theorem exists_inverts (h : ofSupport s = .ok t) (hback : t.map.backward (.scalar y) = .ok x)
    (hx : x.shape = []) (hproper : s.Proper) (hexact : s.Exact) (hexact' : s'.Exact)
    (hs : s.Stands s') : ∃ F G, Inverts s s' t F G := by
  have hneg : ∀ v ∈ s.bounds, v.neg.real? = v.real?.map (- ·) := fun v hv =>
    real?_neg (hexact.integer?_ne hv) fun r n heq => hexact.signed r n (heq ▸ hv)
  obtain ⟨lower | lower, upper | upper⟩ := s
  · obtain ⟨lower', upper'⟩ := s'
    obtain ⟨⟨⟩, ⟨⟩⟩ := hs
    cases h
    exact ⟨id, id, Exact.identity, ⟨identity, rfl, Exact.identity⟩, fun _ => rfl, fun _ _ => rfl⟩
  · obtain ⟨lower', upper'⟩ := s'
    obtain ⟨⟨⟩, ⟨hupper⟩⟩ := hs
    obtain ⟨u, hu⟩ := denotes_of_ofUpper h hback hx hupper.settled_left
    exact ⟨_, _, Inverts.ofUpper hu hupper h⟩
  · obtain ⟨lower', upper'⟩ := s'
    obtain ⟨@⟨_, lower', hlower⟩, ⟨⟩⟩ := hs
    obtain ⟨l, hl, hopposite⟩ :=
      denotes_of_ofLower h hback hx hlower.settled_left (hneg lower (by simp [Support.bounds]))
    have hmem : lower' ∈ Support.bounds ⟨some lower', none⟩ := by simp [Support.bounds]
    exact ⟨_, _, Inverts.ofLower hl hopposite (hlower.denotes_neg hopposite
      (hexact'.integer?_ne hmem) fun r n heq => hexact'.signed r n (heq ▸ hmem)) hlower h⟩
  · obtain ⟨lower', upper'⟩ := s'
    obtain ⟨@⟨_, lower', hlower⟩, @⟨_, upper', hupper⟩⟩ := hs
    have hmem : lower ∈ Support.bounds ⟨some lower, some upper⟩ := by simp [Support.bounds]
    have hmem' : lower' ∈ Support.bounds ⟨some lower', some upper'⟩ := by simp [Support.bounds]
    exact exists_inverts_ofBounds h hback hx (hproper lower rfl upper rfl) (hneg lower hmem)
      (hexact.near (by simp [Support.bounds]) hmem) (hexact'.near (by simp [Support.bounds]) hmem')
      (hexact'.integer?_ne hmem') hlower hupper

end Transform

end BayesGraph
