import Mathlib
import BayesGraph.Proofs.Intervals
import BayesGraph.Proofs.Placement

/-!
# Transforms of intervals

The transform of a support takes the line onto the interval that the support spans, and back
(`Transform.exists_ofSupport`). Which of the simpler transforms is chosen, and whether the bounds
are known or computed, makes no difference (`Transform.ofSupport_agree`).
-/

set_option autoImplicit false

namespace BayesGraph

open Outcome ExactReals

namespace Value

variable {v x y : Value ℝ} {a b c : ℝ}

/-- A difference of numbers that is a number, unless both are known integers. -/
theorem Denotes.sub_cases (hx : x.Denotes a) (hy : y.Denotes b) (h : x.sub y = .ok v)
    (hv : v.real? = some c) : v.Denotes c ∨ ∃ m n, x = .int m ∧ y = .int n := by
  have hsettled : v.Settled := settled_arithmetic h hx.settled hy.settled
  match v with
  | .number (.real r) =>
    obtain rfl : r = c := Option.some.inj hv
    exact Or.inl ⟨trivial, rfl⟩
  | .word r w =>
    obtain rfl : r = .density := hsettled
    exact Or.inl (denotes_word hv)
  | .array r t => exact Or.inl (denotes_of_operand hsettled rfl hv)
  | .object d => cases hv
  | .number (.int k) =>
    refine Or.inr ?_
    unfold Value.sub arithmetic at h
    split at h
    · next m n => exact ⟨m, n, rfl, rfl⟩
    · simp only [bind_eq_ok, pure_eq_ok] at h
      obtain ⟨_, -, _, -, h⟩ := h
      cases h
    · cases (besideWord_eq_ok h).2
    · cases (besideWord_eq_ok h).2
    · split at h
      · cases h
      · obtain ⟨_, _, _, -, -, -, h⟩ := combine_eq_scalar h rfl
        cases h
    · cases h
    · cases h
    · cases h
    · obtain ⟨_, _, _, -, -, -, h⟩ := combine_eq_scalar h rfl
      cases h

/-- Division of a known number by zero. -/
theorem quotientOfNumbers_zero {k w : Number ℝ} (hk : ofNumber k = .ok a)
    (hw : w = .int 0 ∨ w = .real 0) : quotientOfNumbers k w = .error .zeroDivision := by
  have hreal (h : ofNumber w = .ok 0) : (do
      let x ← ofNumber k
      let y ← ofNumber w
      if Scalar.eq y (Scalar.ofInt 0) then throw .zeroDivision else return .real (x / y)) =
        (.error .zeroDivision : Except EvalError (Number ℝ)) := by
    have hzero : (Scalar.eq (0 : ℝ) (Scalar.ofInt 0) : Bool) = true := decide_eq_true (by simp)
    rw [hk, h]
    simp only [ok_bind, hzero]
    rfl
  rcases hw with rfl | rfl
  · cases k with
    | int n => rfl
    | real r =>
      refine hreal ?_
      have hint : (ofInt 0 : Except EvalError ℝ) = .ok ((0 : Int) : ℝ) :=
        ofInt_of_natAbs (by decide)
      rw [Int.cast_zero] at hint
      exact hint
  · cases k with
    | int n => exact hreal rfl
    | real r => exact hreal rfl

/-- The difference of equal known numbers is zero. -/
theorem Denotes.exists_sub_self {k l : Number ℝ} (hl : (number l).Denotes a)
    (hk : (number k).Denotes a) :
    ∃ w, (number l).sub (.number k) = .ok (.number w) ∧ (w = .int 0 ∨ w = .real 0) := by
  obtain ⟨b, hb, hofk⟩ := ofNumber_of_operand hk.operand
  obtain ⟨c, hc, hofl⟩ := ofNumber_of_operand hl.operand
  obtain rfl := Tensor.scalar_inj hb
  obtain rfl := Tensor.scalar_inj hc
  match l, k with
  | .int n, .int m =>
    have hmn : (n : ℝ) = m := Option.some.inj (hl.real?_eq.trans hk.real?_eq.symm)
    obtain rfl : n = m := by exact_mod_cast hmn
    exact ⟨.int (n - n), rfl, Or.inl (by rw [sub_self])⟩
  | .real r, _ =>
    obtain rfl : r = a := Option.some.inj hl.real?_eq
    exact ⟨.real (r - r), arithmetic_real_left hofk, Or.inr (by rw [sub_self])⟩
  | _, .real r =>
    obtain rfl : r = a := Option.some.inj hk.real?_eq
    exact ⟨.real (r - r), arithmetic_real_right hofl, Or.inr (by rw [sub_self])⟩

/-- The opposite of a known number is a known number. -/
theorem Denotes.exists_neg {k : Number ℝ} (hk : (number k).Denotes a) :
    ∃ m b, (number k).neg = .number m ∧ ofNumber m = .ok b := by
  cases k with
  | int n =>
    have hsize := natAbs_of_operand hk.operand
    exact ⟨.int (-n), _, rfl, ofInt_of_natAbs (by rwa [Int.natAbs_neg])⟩
  | real r => exact ⟨.real (-r), -r, rfl, rfl⟩

end Value

namespace Bijection

variable {b c : Bijection ℝ} {F G J D : ℝ → ℝ}

/-- All three maps are functions of one real, for computed reals as for known ones: backward `F`,
forward `G`, and the logarithm of the derivative `J`. -/
structure Computes (b : Bijection ℝ) (F G J : ℝ → ℝ) : Prop where
  exact : b.Exact F G
  logJacobian : ∀ a v, Value.Alike (.scalar a) v →
    ∃ u, b.logJacobian v = .ok u ∧ Value.Alike (.scalar (J a)) u

/-- The derivative of the backward direction belongs to it. -/
theorem Exact.hasDerivAt (h : b.Exact F G) (hsmooth : ∃ F D, b.Smooth F D) (y : ℝ) :
    HasDerivAt F (deriv F y) y ∧ deriv F y ≠ 0 ∧
      b.logJacobian (.scalar y) = .ok (.scalar (Real.log |deriv F y|)) := by
  obtain ⟨F', D, hsmooth⟩ := hsmooth
  obtain rfl : F' = F := by
    funext z
    have hback := (hsmooth.backward z).symm.trans (h.backward_scalar z)
    exact Tensor.scalar_inj (Value.array.inj (Except.ok.inj hback)).2
  have hD : deriv F' y = D y := (hsmooth.derivative y).deriv
  rw [hD]
  exact ⟨hsmooth.derivative y, hsmooth.ne_zero y, hsmooth.logJacobian y⟩

/-- An exact and smooth bijection computes its two functions and the logarithm of its slope. -/
theorem Exact.computes (h : b.Exact F G) (hsmooth : ∃ F D, b.Smooth F D) :
    b.Computes F G fun y => Real.log |deriv F y| where
  exact := h
  logJacobian a v hv := by
    obtain ⟨-, -, hslope⟩ := h.hasDerivAt hsmooth a
    obtain ⟨s, hs⟩ := h.logJacobian a
    obtain ⟨u, hu, halike⟩ := hs _ (Value.alike_scalar a)
    cases hu.symm.trans hslope
    obtain rfl : s = Real.log |deriv F a| :=
      Tensor.scalar_inj (Except.ok.inj halike.toTensor_eq)
    exact hs v hv

/-- On all reals, the two bijections succeed with the same reals in all three maps. -/
def Agree (b c : Bijection ℝ) : Prop := ∃ F G J, b.Computes F G J ∧ c.Computes F G J

/-- Two exact and smooth bijections with the same functions agree in all three maps. -/
theorem Exact.agree (hb : b.Exact F G) (hc : c.Exact F G) (hbs : ∃ F D, b.Smooth F D)
    (hcs : ∃ F D, c.Smooth F D) : b.Agree c :=
  ⟨F, G, _, hb.computes hbs, hc.computes hcs⟩

end Bijection

namespace Support

/-- Integers of 64 bits do not wrap around when the sign of the lower bound is reversed and when the
lower bound is subtracted from the upper one. Bounds that are no integers have this property. -/
structure Unwrapped (s : Support ℝ) : Prop where
  opposite : ∀ v ∈ s.lower, ∀ a, v.real? = some a → v.neg.Denotes (-a)
  width : ∀ v ∈ s.lower, ∀ w ∈ s.upper, ∀ a b, v.real? = some a → w.real? = some b →
    ∃ x, w.sub v = .ok x ∧ x.real? = some (b - a)

variable {s : Support ℝ} {I : Interval}

/-- A support that spans an interval with distinct ends has different bounds. -/
theorem Spans.proper (hs : s.Spans I) (hI : I.Distinct) : s.Proper := by
  obtain ⟨lower, upper⟩ := s
  obtain ⟨p, q⟩ := I
  obtain ⟨hl, hu⟩ := hs
  rintro v hv w hw a ha hb
  dsimp only at hl hu hv hw
  cases hl with
  | none => cases hv
  | @some x l hx =>
    cases hu with
    | none => cases hw
    | @some y u hy =>
      cases hv
      cases hw
      have hlu : l = u := Option.some.inj <|
        (hx.real?_eq.symm.trans ha).trans (hb.symm.trans hy.real?_eq)
      exact hI l rfl u rfl hlu

/-- Bounds of which none is a computed integer do not wrap around, unless the opposite of the lower
one is no integer of 64 bits. -/
theorem Spans.unwrapped (hs : s.Spans I) (hword : ∀ r w, .word r w ∉ s.bounds)
    (hopposite : .int (-2 ^ 63) ∉ s.lower) : s.Unwrapped := by
  obtain ⟨lower, upper⟩ := s
  obtain ⟨p, q⟩ := I
  obtain ⟨hl, hu⟩ := hs
  dsimp only at hl hu
  refine ⟨?_, ?_⟩
  · rintro v ⟨⟩ a ha
    cases hl with
    | @some _ l hx =>
      obtain rfl : l = a := Option.some.inj (hx.real?_eq.symm.trans ha)
      have hv (r : Rules) (w : Word) : v ≠ .word r w := fun h => hword r w (by simp [bounds, h])
      refine hx.neg (fun hn => ?_) fun r n => hv r _
      unfold Value.integer? at hn
      split at hn
      · cases hn
        exact hopposite rfl
      · exact hv _ _ rfl
      · cases hn
  · rintro v ⟨⟩ w ⟨⟩ a b ha hb
    cases hl with
    | @some _ l hx =>
      cases hu with
      | @some _ u hy =>
        obtain rfl : l = a := Option.some.inj (hx.real?_eq.symm.trans ha)
        obtain rfl : u = b := Option.some.inj (hy.real?_eq.symm.trans hb)
        have hv (r : Rules) (k : Word) : v ≠ .word r k := fun h =>
          hword r k (by simp [bounds, h])
        have hw (r : Rules) (k : Word) : w ≠ .word r k := fun h =>
          hword r k (by simp [bounds, h])
        have hnear : Value.Near w v :=
          ⟨fun r n => ⟨hw r _, hv r _⟩, fun r k h => absurd h (not_or.mpr ⟨hw r k, hv r k⟩)⟩
        rcases hy.exists_sub hx hnear with ⟨x, hx, hdenotes⟩ | ⟨m, n, rfl, rfl⟩
        · exact ⟨x, hx, hdenotes.real?_eq⟩
        · cases ha
          cases hb
          exact ⟨_, rfl, congrArg some (Int.cast_sub m n)⟩

end Support

namespace Transform

open Value

variable {s : Support ℝ} {t : Transform ℝ} {I : Interval} {F G : ℝ → ℝ}

/-- The transform of a support is that of the interval which the support spans. -/
theorem exists_ofSupport (hs : s.Spans I) (hI : I.Distinct) (hunwrapped : s.Unwrapped) :
    ∃ t, ofSupport s = .ok t ∧ t.map.Exact I.ofReal I.toReal ∧ ∃ F D, t.map.Smooth F D := by
  obtain ⟨t, ht, hexact⟩ : ∃ t, ofSupport s = .ok t ∧ t.map.Exact I.ofReal I.toReal := by
    obtain ⟨lower, upper⟩ := s
    obtain ⟨p, q⟩ := I
    obtain ⟨hl, hu⟩ := hs
    dsimp only at hl hu
    cases hl with
    | none =>
      cases hu with
      | none => exact ⟨identity, rfl, Bijection.Exact.identity⟩
      | some hu => exact exact_ofUpper hu
    | @some x l hx =>
      have hneg := hunwrapped.opposite x rfl l hx.real?_eq
      cases hu with
      | none => exact exact_ofLower hneg hx.real?_eq
      | @some y u hy =>
        obtain ⟨w, hw, hreal⟩ := hunwrapped.width x rfl y rfl l u hx.real?_eq hy.real?_eq
        refine exact_ofBounds hx hneg hy (hI l rfl u rfl).symm ?_
        exact (hy.sub_cases hx hw hreal).imp_left fun hdenotes => ⟨w, hw, hdenotes⟩
  exact ⟨t, ht, hexact,
    exists_smooth_of_ofSupport ht (hs.proper hI) (hexact.backward_scalar 0) rfl⟩

/-- The logarithm is the transform of the numbers above zero. -/
theorem log_agree {zero : Value ℝ} (h : zero.neg.Denotes (-0)) :
    (log : Transform ℝ).map.Agree (shiftedLog zero).map := by
  have hshifted := exact_shiftedLog h
  exact (Bijection.Exact.log.congr (fun _ => (zero_add _).symm) fun x => by rw [sub_zero]).agree
    hshifted ⟨_, _, Bijection.Smooth.log⟩
    (exists_smooth_of_affine Bijection.Smooth.log (by simp) (hshifted.backward_scalar 0) rfl)

/-- The logarithm of the opposite is the transform of the numbers below zero. -/
theorem negLog_agree {zero : Value ℝ} (h : zero.Denotes 0) :
    (negLog : Transform ℝ).map.Agree (shiftedNegLog zero).map := by
  have hshifted := exact_shiftedNegLog h
  have hinner := Bijection.Smooth.log.compose smooth_reflection
  exact (exact_negLog.congr (fun _ => (zero_sub _).symm) fun x => by rw [zero_sub]).agree
    hshifted ⟨_, _, smooth_reflection.compose hinner⟩
    (exists_smooth_of_affine hinner (by simp) (hshifted.backward_scalar 0) rfl)

/-- The logit is the transform of the interval from zero to one. -/
theorem logit_agree {zero one : Value ℝ} (hzero : zero.Denotes 0) (hone : one.Denotes 1)
    (hunwrapped : Support.Unwrapped ⟨some zero, some one⟩) :
    ∃ t, generalLogit zero one = .ok t ∧ (logit : Transform ℝ).map.Agree t.map := by
  obtain ⟨w, hw, hreal⟩ :=
    hunwrapped.width zero rfl one rfl 0 1 hzero.real?_eq hone.real?_eq
  obtain ⟨offset, slope, ht, hoffset, hslope⟩ :=
    exists_generalLogit hzero (hunwrapped.opposite zero rfl 0 hzero.real?_eq) hone one_ne_zero
      ((hone.sub_cases hzero hw hreal).imp_left fun hdenotes => ⟨w, hw, hdenotes⟩)
  have hexact := exact_logit one_ne_zero hoffset hslope
  have hproper : ∀ a, zero.real? = some a → one.real? ≠ some a := by
    rw [hzero.real?_eq, hone.real?_eq]
    rintro a ⟨⟩ h
    exact zero_ne_one (Option.some.inj h).symm
  refine ⟨_, ht, Bijection.Exact.agree (Bijection.Exact.logit.congr ?_ ?_) hexact
    ⟨_, _, Bijection.Smooth.logit⟩
    (exists_smooth_of_generalLogit ht hproper (hexact.backward_scalar 0) rfl)⟩
  · intro y
    ring
  · intro x
    simp

/-- Between known bounds that are the same number there is no transform. -/
theorem ofSupport_equal {k l : Number ℝ} {a : ℝ} (hk : (number k).Denotes a)
    (hl : (number l).Denotes a) :
    ofSupport ⟨some (.number k), some (.number l)⟩ = .error .zeroDivision := by
  have hknown : (isKnown (.number k : Value ℝ) 0 && isKnown (.number l : Value ℝ) 1) = false := by
    rw [Bool.and_eq_false_imp]
    intro hzero
    rw [← Bool.not_eq_true]
    intro hone
    have ha := Option.some.inj (hk.real?_eq.symm.trans (real?_of_isKnown hzero))
    have hb := Option.some.inj (hl.real?_eq.symm.trans (real?_of_isKnown hone))
    exact absurd (ha.symm.trans hb) (by norm_num)
  obtain ⟨w, hw, hzero⟩ := hl.exists_sub_self hk
  obtain ⟨m, b, hneg, hm⟩ := hk.exists_neg
  have hdivision : (number k).neg.quotient (.number w) = .error .zeroDivision := by
    rw [hneg]
    change Except.map Value.number (quotientOfNumbers m w) = _
    rw [quotientOfNumbers_zero hm hzero]
    rfl
  unfold ofSupport
  dsimp only
  rw [hknown, if_neg Bool.false_ne_true]
  unfold generalLogit
  rw [hw, ok_bind, hdivision, error_bind]

/-- The transform depends on the numbers that the bounds are, and not on whether these are known or
computed. -/
theorem ofSupport_agree :
    (∀ (s s' : Support ℝ) (I : Interval), s.Spans I → s'.Spans I → I.Distinct → s.Unwrapped →
      s'.Unwrapped → ∃ t t', ofSupport s = .ok t ∧ ofSupport s' = .ok t' ∧ t.map.Agree t'.map) ∧
    (∀ zero one : Value ℝ, zero.Denotes 0 → one.Denotes 1 →
      Support.Unwrapped ⟨some zero, some one⟩ →
        (log : Transform ℝ).map.Agree (shiftedLog zero).map ∧
        (negLog : Transform ℝ).map.Agree (shiftedNegLog zero).map ∧
        ∃ t, generalLogit zero one = .ok t ∧ (logit : Transform ℝ).map.Agree t.map) ∧
    (∀ (isUpper : Bool) (v v' w w' : Option (Value ℝ)) (p q : Option ℝ),
      Option.Rel Denotes v p → Option.Rel Denotes v' p → Option.Rel Denotes w q →
      Option.Rel Denotes w' q → ∃ u u' r, tighterBound isUpper v w = .ok u ∧
        tighterBound isUpper v' w' = .ok u' ∧ Option.Rel Denotes u r ∧ Option.Rel Denotes u' r) ∧
    ∀ (k l : Number ℝ) (a : ℝ), (number k).Denotes a → (number l).Denotes a →
      ofSupport ⟨some (.number k), some (.number l)⟩ = .error .zeroDivision := by
  refine ⟨fun s s' I hs hs' hI hu hu' => ?_, fun zero one hzero hone hunwrapped => ?_,
    fun isUpper v v' w w' p q hv hv' hw hw' => ?_, fun k l a => ofSupport_equal⟩
  · obtain ⟨t, ht, hexact, hsmooth⟩ := exists_ofSupport hs hI hu
    obtain ⟨t', ht', hexact', hsmooth'⟩ := exists_ofSupport hs' hI hu'
    exact ⟨t, t', ht, ht', hexact.agree hexact' hsmooth hsmooth'⟩
  · have hneg := hunwrapped.opposite zero rfl 0 hzero.real?_eq
    exact ⟨log_agree hneg, negLog_agree hzero, logit_agree hzero hone hunwrapped⟩
  · obtain ⟨u, hu, hbound⟩ := tighterBound_denotes isUpper hv hw
    obtain ⟨u', hu', hbound'⟩ := tighterBound_denotes isUpper hv' hw'
    exact ⟨u, u', _, hu, hu', hbound, hbound'⟩

/-- The bounds 0 and 1, known and computed. -/
theorem ofSupport_agree_unit :
    Support.Spans ⟨some (.int 0), some (.int 1)⟩ ⟨some 0, some 1⟩ ∧
      Support.Spans ⟨some (.scalar 0), some (.scalar 1)⟩ ⟨some 0, some 1⟩ ∧
      ofSupport ⟨some (.int 0), some (.int 1)⟩ = .ok (logit : Transform ℝ) ∧
      (∃ t, ofSupport ⟨some (.scalar 0), some (.scalar 1)⟩ = .ok t ∧
        (logit : Transform ℝ).map.Agree t.map) ∧
      (log : Transform ℝ).map.Agree (shiftedLog (.scalar 0)).map ∧
      (∃ u u' r, tighterBound true (some (.int 1)) none = .ok u ∧
        tighterBound true (some (.scalar (1 : ℝ))) none = .ok u' ∧
        Option.Rel Denotes u r ∧ Option.Rel Denotes u' r) ∧
      ofSupport ⟨some (.int 0), some (.int 0)⟩ =
        (.error .zeroDivision : Except EvalError (Transform ℝ)) := by
  have hint (n : Int) (h : Word.fitsSigned n = true) : (Value.int n : Value ℝ).Denotes n :=
    ⟨trivial, operand_int h⟩
  have hzero : (Value.int 0 : Value ℝ).Denotes 0 := by simpa using hint 0 (by decide)
  have hone : (Value.int 1 : Value ℝ).Denotes 1 := by simpa using hint 1 (by decide)
  have hknown : Support.Spans ⟨some (.int 0), some (.int 1)⟩ ⟨some 0, some 1⟩ :=
    ⟨.some hzero, .some hone⟩
  have hcomputed : Support.Spans ⟨some (.scalar 0), some (.scalar 1)⟩ ⟨some 0, some 1⟩ :=
    ⟨.some (alike_scalar _).denotes, .some (alike_scalar _).denotes⟩
  have hdistinct : (⟨some 0, some 1⟩ : Interval).Distinct := by
    rintro _ ⟨⟩ _ ⟨⟩
    exact zero_ne_one
  have hunwrapped := hcomputed.unwrapped (by simp [Support.bounds, Value.scalar])
    (by simp [Value.scalar, Value.int])
  obtain ⟨hsupports, hforms, hbounds, hequal⟩ := ofSupport_agree
  obtain ⟨t, t', ht, ht', hagree⟩ := hsupports _ _ _ hknown hcomputed hdistinct
    (hknown.unwrapped (by simp [Support.bounds, Value.int]) (by simp [Value.int])) hunwrapped
  have hlogit : ofSupport ⟨some (.int 0), some (.int 1)⟩ = .ok (logit : Transform ℝ) := by
    have h0 : isKnown (Value.int 0 : Value ℝ) 0 = true := rfl
    have h1 : isKnown (Value.int 1 : Value ℝ) 1 = true := rfl
    unfold ofSupport
    dsimp only
    rw [h0, h1]
    rfl
  cases ht.symm.trans hlogit
  exact ⟨hknown, hcomputed, hlogit, ⟨t', ht', hagree⟩,
    (hforms _ _ (alike_scalar 0).denotes (alike_scalar 1).denotes hunwrapped).1,
    hbounds true _ _ none none (some 1) none (.some hone) (.some (alike_scalar 1).denotes) .none
      .none,
    hequal (.int 0) (.int 0) 0 hzero hzero⟩

end Transform

namespace BoundDist

variable {d : BoundDist ℝ} {I J : Interval}

/-- The support of a distribution is the intersection of the support of its family with the interval
between the truncation bounds. A coordinate is taken strictly into this interval, and
`toUnconstrained` is the inverse on it, for computed reals as for known ones; the second result is
the logarithm of the absolute derivative. -/
theorem toConstrained_spans
    (hcheck : d.family.support.check d.family.name (some d.params.length) = .ok ())
    (hfamily : (d.family.support.meaning d.params).Spans I)
    (hbounds : Support.Spans ⟨d.lower, d.upper⟩ J) :
    (∀ x, (I.inter J).Contains x ↔ I.Contains x ∧ J.Contains x) ∧
    ∃ s, d.support = .ok s ∧ s.Spans (I.inter J) ∧
      ((I.inter J).Proper → s.Unwrapped → ∃ F G : ℝ → ℝ,
        (∀ y, (I.inter J).Contains (F y) ∧ G (F y) = y) ∧
        (∀ x, (I.inter J).Contains x → F (G x) = x) ∧
        (∀ y, ∃ D, HasDerivAt F D y ∧ D ≠ 0 ∧ ∀ v, Value.Alike (.scalar y) v →
          ∃ x j, d.toConstrained v = .ok (x, j) ∧ Value.Alike (.scalar (F y)) x ∧
            Value.Alike (.scalar (Real.log |D|)) j) ∧
        ∀ x v, Value.Alike (.scalar x) v →
          ∃ y, d.toUnconstrained v = .ok y ∧ Value.Alike (.scalar (G x)) y) := by
  refine ⟨fun x => Interval.contains_inter, ?_⟩
  obtain ⟨s, hs, hspans⟩ := exists_support hcheck hfamily hbounds
  refine ⟨s, hs, hspans, fun hproper hunwrapped => ?_⟩
  obtain ⟨t, ht, hexact, hsmooth⟩ :=
    Transform.exists_ofSupport hspans hproper.distinct hunwrapped
  have htransform : d.transform = .ok t := bind_eq_ok.mpr ⟨s, hs, ht⟩
  refine ⟨(I.inter J).ofReal, (I.inter J).toReal,
    fun y => ⟨Interval.contains_ofReal hproper y, Interval.toReal_ofReal hproper.distinct y⟩,
    fun x => Interval.ofReal_toReal, fun y => ?_, fun x v hv => ?_⟩
  · obtain ⟨hderiv, hne, -⟩ := hexact.hasDerivAt hsmooth y
    refine ⟨_, hderiv, hne, fun v hv => ?_⟩
    obtain ⟨x, hx, halike⟩ := hexact.backward y v hv
    obtain ⟨j, hj, hjalike⟩ := (hexact.computes hsmooth).logJacobian y v hv
    exact ⟨x, j, toConstrained_eq_ok.mpr ⟨t, htransform, hx, hj⟩, halike, hjalike⟩
  · obtain ⟨y, hy, halike⟩ := hexact.forward x v hv
    exact ⟨y, bind_eq_ok.mpr ⟨t, htransform, hy⟩, halike⟩

/-- The uniform distribution from a computed bound to a known integer, truncated above by a known
real: the support goes from -1 to 2. -/
theorem toConstrained_spans_uniform :
    ∃ f, (Registry.builtin : Registry ℝ).families.get? "dunif" = some f ∧
      f.support.check f.name (some 2) = .ok () ∧
      (f.support.meaning [.scalar (-1), .int 3]).Spans ⟨some (-1), some 3⟩ ∧
      Support.Spans ⟨none, some (.real 2)⟩ ⟨none, some 2⟩ ∧
      ∃ s, support ⟨f, [.scalar (-1), .int 3], none, some (.real 2)⟩ = .ok s ∧ s.Unwrapped ∧
        ∃ F : ℝ → ℝ, ∀ y, -1 < F y ∧ F y < 2 ∧
          ∃ x j, toConstrained ⟨f, [.scalar (-1), .int 3], none, some (.real 2)⟩ (.scalar y) =
            .ok (x, j) ∧ Value.Alike (.scalar (F y)) x := by
  have hthree : (Value.int 3 : Value ℝ).Denotes 3 := by
    have hoperand := Value.operand_int (n := 3) (by decide)
    exact ⟨trivial, by exact_mod_cast hoperand⟩
  have hfamily : Support.Spans ⟨some (.scalar (-1)), some (.int 3)⟩ ⟨some (-1), some 3⟩ :=
    ⟨.some (Value.alike_scalar _).denotes, .some hthree⟩
  have hbounds : Support.Spans ⟨none, some (.real 2)⟩ ⟨none, some 2⟩ :=
    ⟨.none, .some ⟨trivial, rfl⟩⟩
  obtain ⟨f, hf, hsupport⟩ : ∃ f, (Registry.builtin : Registry ℝ).families.get? "dunif" = some f ∧
      f.support = Builtin.dependentSupport ["a", "b"] fun ps => ⟨ps[0]?, ps[1]?⟩ := ⟨_, rfl, rfl⟩
  have hcheck : f.support.check f.name (some 2) = .ok () := by
    rw [hsupport]
    rfl
  have hspans : (f.support.meaning [.scalar (-1), .int 3]).Spans ⟨some (-1), some 3⟩ := by
    rw [hsupport]
    exact hfamily
  refine ⟨f, hf, hcheck, hspans, hbounds, ?_⟩
  obtain ⟨-, s, hs, hspans, hinverse⟩ := toConstrained_spans
    (d := ⟨f, [.scalar (-1), .int 3], none, some (.real 2)⟩) hcheck hspans hbounds
  have hunwrapped : s.Unwrapped := by
    unfold support at hs
    rw [hsupport] at hs
    cases hs
    refine hspans.unwrapped (fun r w hmem => ?_) fun hmem => ?_
    · simp [Support.bounds, Value.scalar] at hmem
    · simp [Value.scalar, Value.int] at hmem
  have hproper : (Interval.inter ⟨some (-1), some 3⟩ ⟨none, some 2⟩).Proper := by
    rintro _ ⟨⟩ _ ⟨⟩
    norm_num
  obtain ⟨F, G, hinside, -, hslope, -⟩ := hinverse hproper hunwrapped
  refine ⟨s, hs, hunwrapped, F, fun y => ⟨(hinside y).1.lower _ rfl, ?_, ?_⟩⟩
  · exact ((hinside y).1.upper _ rfl).trans_le (min_le_right 3 2)
  · obtain ⟨D, -, -, hvalue⟩ := hslope y
    obtain ⟨x, j, hx, halike, -⟩ := hvalue _ (Value.alike_scalar y)
    exact ⟨x, j, hx, halike⟩

end BoundDist

end BayesGraph
