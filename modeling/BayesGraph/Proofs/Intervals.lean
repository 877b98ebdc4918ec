import Mathlib
import BayesGraph.Proofs.Inverses

/-!
# Intervals and their coordinates

An interval has a lower and an upper bound, or lacks one of them or both. `Interval.ofReal` takes
the line onto the interval and `Interval.toReal` takes the interval back to the line.

The bounds of a support are values of several kinds, and `Support.Spans` says which interval they
stand for. The tighter one of two bounds is the bound of the intersection, whatever kinds of numbers
the two bounds are (`Value.tighterBound_denotes`).
-/

set_option autoImplicit false

namespace BayesGraph

open Outcome ExactReals

/-- An open interval of the real line; an absent bound means that there is none. -/
structure Interval where
  lower : Option ℝ := none
  upper : Option ℝ := none

namespace Interval

variable {I J : Interval} {x : ℝ}

/-- A real lies strictly between the bounds. -/
structure Contains (I : Interval) (x : ℝ) : Prop where
  lower : ∀ a ∈ I.lower, a < x
  upper : ∀ b ∈ I.upper, x < b

/-- The larger one of lower bounds with the smaller one of upper bounds. -/
noncomputable def inter (I J : Interval) : Interval :=
  ⟨I.lower.merge max J.lower, I.upper.merge min J.upper⟩

/-- The numbers of an intersection are those of both intervals. -/
theorem contains_inter : (I.inter J).Contains x ↔ I.Contains x ∧ J.Contains x := by
  have hlower : (∀ a ∈ (I.inter J).lower, a < x) ↔
      (∀ a ∈ I.lower, a < x) ∧ ∀ a ∈ J.lower, a < x := by
    rcases hI : I.lower with _ | a <;> rcases hJ : J.lower with _ | b <;> simp [inter, hI, hJ]
  have hupper : (∀ b ∈ (I.inter J).upper, x < b) ↔
      (∀ b ∈ I.upper, x < b) ∧ ∀ b ∈ J.upper, x < b := by
    rcases hI : I.upper with _ | a <;> rcases hJ : J.upper with _ | b <;> simp [inter, hI, hJ]
  constructor
  · rintro ⟨hl, hu⟩
    exact ⟨⟨(hlower.mp hl).1, (hupper.mp hu).1⟩, ⟨(hlower.mp hl).2, (hupper.mp hu).2⟩⟩
  · rintro ⟨hI, hJ⟩
    exact ⟨hlower.mpr ⟨hI.lower, hJ.lower⟩, hupper.mpr ⟨hI.upper, hJ.upper⟩⟩

/-- The lower bound is less than the upper one. -/
def Proper (I : Interval) : Prop := ∀ a ∈ I.lower, ∀ b ∈ I.upper, a < b

/-- The bounds are not the same number. -/
def Distinct (I : Interval) : Prop := ∀ a ∈ I.lower, ∀ b ∈ I.upper, a ≠ b

/-- The ends of a proper interval are different numbers. -/
theorem Proper.distinct (h : I.Proper) : I.Distinct := fun a ha b hb => (h a ha b hb).ne

/-- From the line to the interval. -/
noncomputable def ofReal : Interval → ℝ → ℝ
  | ⟨none, none⟩, y => y
  | ⟨some l, none⟩, y => l + Real.exp y
  | ⟨none, some u⟩, y => u - Real.exp (-y)
  | ⟨some l, some u⟩, y => l + (u - l) * y.sigmoid

/-- From the interval to the line. -/
noncomputable def toReal : Interval → ℝ → ℝ
  | ⟨none, none⟩, x => x
  | ⟨some l, none⟩, x => Real.log (x - l)
  | ⟨none, some u⟩, x => -Real.log (u - x)
  | ⟨some l, some u⟩, x => Real.log ((x - l) / (u - l) / (1 - (x - l) / (u - l)))

/-- The line is taken into the interval. -/
theorem contains_ofReal (h : I.Proper) (y : ℝ) : I.Contains (I.ofReal y) := by
  obtain ⟨_ | l, _ | u⟩ := I
  · exact ⟨by rintro _ ⟨⟩, by rintro _ ⟨⟩⟩
  · refine ⟨by rintro _ ⟨⟩, ?_⟩
    rintro _ ⟨⟩
    exact sub_lt_self u (Real.exp_pos (-y))
  · refine ⟨?_, by rintro _ ⟨⟩⟩
    rintro _ ⟨⟩
    exact lt_add_of_pos_right l (Real.exp_pos y)
  · have hwidth : 0 < u - l := sub_pos.mpr (h l rfl u rfl)
    refine ⟨?_, ?_⟩
    · rintro _ ⟨⟩
      exact lt_add_of_pos_right l (mul_pos hwidth (Real.sigmoid_pos y))
    · rintro _ ⟨⟩
      have hpart : (u - l) * y.sigmoid < u - l :=
        mul_lt_of_lt_one_right hwidth (Real.sigmoid_lt_one y)
      change l + (u - l) * y.sigmoid < u
      linarith

/-- The way from the real line to the interval undoes the way back. -/
theorem toReal_ofReal (h : I.Distinct) (y : ℝ) : I.toReal (I.ofReal y) = y := by
  obtain ⟨_ | l, _ | u⟩ := I
  · rfl
  · simp [ofReal, toReal]
  · simp [ofReal, toReal]
  · exact Transform.logit_left (h l rfl u rfl).symm y

/-- The way back to the real line undoes the way to the interval. -/
theorem ofReal_toReal (h : I.Contains x) : I.ofReal (I.toReal x) = x := by
  obtain ⟨_ | l, _ | u⟩ := I
  · rfl
  · simp [ofReal, toReal, Real.exp_log (sub_pos.mpr (h.upper u rfl))]
  · simp [ofReal, toReal, Real.exp_log (sub_pos.mpr (h.lower l rfl))]
  · exact Transform.logit_right (h.lower l rfl) (h.upper u rfl)

end Interval

/-! ## The tighter one of two numbers -/

namespace Value

variable {isUpper : Bool} {x y : Value ℝ} {a b : ℝ}

/-- The tighter one of two reals is the lesser one of upper bounds, and the greater one of lower
bounds. -/
theorem tighter_eq (isUpper : Bool) (a b : ℝ) :
    tighter isUpper a b = if isUpper then min a b else max a b := by
  unfold tighter
  split
  · rw [min_eq, min_comm, min_def_lt]
  · rw [max_eq, max_def_lt]

/-- The tighter one of two integers. -/
theorem exists_tighter_int (isUpper : Bool) (m n : Int) :
    ∃ k, (if isUpper then min else max : Int → Int → Int) m n = k ∧ (k = m ∨ k = n) ∧
      tighter isUpper (m : ℝ) n = k := by
  refine ⟨_, rfl, ?_, ?_⟩
  · cases isUpper with
    | true => exact min_choice m n
    | false => exact max_choice m n
  · rw [tighter_eq]
    cases isUpper with
    | true => exact Int.cast_min.symm
    | false => exact Int.cast_max.symm

/-- A number as a computed one. -/
theorem Denotes.exists_computed (h : x.Denotes a) :
    ∃ v, Builtin.computed .density x = .ok v ∧ v.Denotes a ∧ v.isKnown = false := by
  match x with
  | .number (.int n) =>
    have hfits : Word.fitsSigned n = true := holds_of_operand (m := 0) h.operand
    refine ⟨.word .density (.signed (Int64.ofInt n)), ?_, denotes_word ?_, rfl⟩
    · change Builtin.computedInt .density n = _
      unfold Builtin.computedInt Word.signed?
      rw [if_pos hfits]
    · exact (real?_like (m := 0) hfits).trans h.real?_eq
  | .number (.real r) =>
    refine ⟨.scalar r, rfl, ?_, rfl⟩
    obtain rfl : r = a := Option.some.inj h.real?_eq
    exact (alike_scalar r).denotes
  | .word r w =>
    obtain rfl : r = .density := h.settled
    exact ⟨_, rfl, h, rfl⟩
  | .array r t =>
    obtain rfl : r = .density := h.settled
    exact ⟨_, rfl, h, rfl⟩
  | .object d => exact absurd h.operand (operand_object d _)

/-- The tighter one of two computed numbers. -/
theorem Denotes.exists_arithmetic (hx : x.Denotes a) (hy : y.Denotes b) (hxc : x.isKnown = false)
    (hyc : y.isKnown = false) :
    ∃ v, arithmetic (if isUpper then min else max) (tighter isUpper) x y = .ok v ∧
      v.Denotes (tighter isUpper a b) := by
  have hcombine := hx.combine (f := tighter isUpper) hy (Or.inl hxc)
  have hscalar (h : arithmetic (if isUpper then min else max) (tighter isUpper) x y =
      x.combine (tighter isUpper) y) :
      ∃ v, arithmetic (if isUpper then min else max) (tighter isUpper) x y = .ok v ∧
        v.Denotes (tighter isUpper a b) :=
    ⟨_, h.trans hcombine, (alike_scalar _).denotes⟩
  cases x with
  | number _ | object _ => cases hxc
  | array _ _ => exact hscalar (arithmetic_array_left _ _ _)
  | word r v =>
    cases y with
    | number _ | object _ => cases hyc
    | array _ _ => exact hscalar (arithmetic_array_right _ _ _)
    | word s w =>
      obtain rfl : r = .density := hx.settled
      obtain rfl : s = .density := hy.settled
      -- Words of different formats meet as reals.
      cases hword : v.combine? (if isUpper then min else max) w with
      | none =>
        refine hscalar ?_
        unfold arithmetic
        dsimp only
        rw [hword]
      | some u =>
        obtain ⟨hformat, rfl⟩ := Word.combine?_eq_some hword
        obtain ⟨k, hk, hone, hreal⟩ := exists_tighter_int isUpper v.toInt w.toInt
        have hholds : v.holds k = true := by
          rcases hone with rfl | rfl
          · exact v.holds_toInt
          · rw [← hformat]
            exact w.holds_toInt
        obtain rfl : (v.toInt : ℝ) = a := Option.some.inj hx.real?_eq
        obtain rfl : (w.toInt : ℝ) = b := Option.some.inj hy.real?_eq
        refine ⟨.word .density (v.like k), ?_, denotes_word ?_⟩
        · unfold arithmetic
          dsimp only
          rw [hword, hk]
          rfl
        · rw [hreal, real?, Word.toInt_like hholds]

/-- Bounds that denote numbers have a tighter one, and it denotes the tighter number. -/
theorem Denotes.exists_tighten (isUpper : Bool) (hx : x.Denotes a) (hy : y.Denotes b) :
    ∃ v, tighten isUpper x y = .ok v ∧ v.Denotes (tighter isUpper a b) := by
  obtain ⟨u, hu, hua, huc⟩ := hx.exists_computed
  obtain ⟨w, hw, hwb, hwc⟩ := hy.exists_computed
  rw [tighten_eq, hu, ok_bind, hw, ok_bind]
  exact hua.exists_arithmetic hwb huc hwc

/-- The tighter one of two known numbers is one of them. -/
theorem exists_tighterBound_numbers {k l : Number ℝ} (hk : (number k).Denotes a)
    (hl : (number l).Denotes b) :
    ∃ v, tighterBound isUpper (some (.number k)) (some (.number l)) = .ok (some v) ∧
      v.Denotes (tighter isUpper a b) := by
  have hchoice (p : Prop) [Decidable p] :
      (number (if p then l else k)).Denotes (if p then b else a) := by
    split
    · exact hl
    · exact hk
  cases isUpper with
  | true =>
    refine ⟨_, rfl, ?_⟩
    rw [tighter, if_pos rfl, min_eq]
    simp only [numbersLt_iff hl.real?_eq hk.real?_eq]
    exact hchoice _
  | false =>
    refine ⟨_, rfl, ?_⟩
    rw [tighter, if_neg Bool.false_ne_true, max_eq]
    simp only [numbersLt_iff hk.real?_eq hl.real?_eq]
    exact hchoice _

/-- The tighter one of two optional bounds, of known numbers and computed ones alike. -/
theorem tighterBound_denotes (isUpper : Bool) {v w : Option (Value ℝ)} {p q : Option ℝ}
    (hv : Option.Rel Denotes v p) (hw : Option.Rel Denotes w q) :
    ∃ u, tighterBound isUpper v w = .ok u ∧
      Option.Rel Denotes u (p.merge (if isUpper then min else max) q) := by
  cases hv with
  | none =>
    refine ⟨w, rfl, ?_⟩
    cases hw with
    | none => exact .none
    | some hw => exact .some hw
  | @some x a hx =>
    cases hw with
    | none => exact ⟨some x, rfl, .some hx⟩
    | @some y b hy =>
      obtain ⟨u, hu, hdenotes⟩ : ∃ u, tighterBound isUpper (some x) (some y) = .ok (some u) ∧
          u.Denotes (tighter isUpper a b) := by
        by_cases hn : ∃ k l, x = .number k ∧ y = .number l
        · obtain ⟨k, l, rfl, rfl⟩ := hn
          exact exists_tighterBound_numbers hx hy
        · push Not at hn
          obtain ⟨u, hu, hdenotes⟩ := hx.exists_tighten isUpper hy
          refine ⟨u, ?_, hdenotes⟩
          rw [tighterBound_computed isUpper hn, hu]
          rfl
      rw [tighter_eq] at hdenotes
      refine ⟨some u, hu, .some ?_⟩
      cases isUpper with
      | true => exact hdenotes
      | false => exact hdenotes

end Value

/-- The bounds of the support stand for those of the interval. -/
structure Support.Spans (s : Support ℝ) (I : Interval) : Prop where
  lower : Option.Rel Value.Denotes s.lower I.lower
  upper : Option.Rel Value.Denotes s.upper I.upper

namespace BoundDist

variable {d : BoundDist ℝ} {I J : Interval}

/-- The support of a truncated distribution is the intersection of the support of its family with
the interval between the truncation bounds. -/
theorem exists_support
    (hcheck : d.family.support.check d.family.name (some d.params.length) = .ok ())
    (hfamily : (d.family.support.meaning d.params).Spans I)
    (hbounds : Support.Spans ⟨d.lower, d.upper⟩ J) :
    ∃ s, d.support = .ok s ∧ s.Spans (I.inter J) := by
  obtain ⟨lower, hlower, hl⟩ :=
    Value.tighterBound_denotes false hfamily.lower hbounds.lower
  obtain ⟨upper, hupper, hu⟩ :=
    Value.tighterBound_denotes true hfamily.upper hbounds.upper
  refine ⟨⟨lower, upper⟩, ?_, hl, hu⟩
  unfold support
  rw [hcheck]
  dsimp only at hlower hupper ⊢
  rw [hlower, ok_bind, hupper]
  rfl

end BoundDist

end BayesGraph
