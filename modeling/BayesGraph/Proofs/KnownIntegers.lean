import Mathlib
import BayesGraph.Proofs.ExactEvaluation
import BayesGraph.Proofs.Placement

/-!
# Known integers in supports and transforms

A value that is given for a parameter can be an integer. It stands for the same number as the
computed real in its place (`Value.Renders`), but it stays an integer in sums, and in the bounds of
the supports that depend on it. Where the integers among these bounds fit words, the support is the
same one in another form (`BoundDist.Renders.sharesSupport`), and its transform takes the integer
where it takes the real (`Bijection.concur_forward`).
-/

set_option autoImplicit false

namespace BayesGraph

open Outcome ExactReals

/-! ## The tighter one of two bounds -/

namespace Value

variable {u v w x x' y y' : Value ℝ} {a b : ℝ} {isUpper : Bool} {bound bound' : Option (Value ℝ)}

/-- A number is a real. -/
theorem Reads.real?_eq (h : v.Reads a) : v.real? = some a := by
  cases h with
  | int n | word n => rw [ofInt_eq]; rfl
  | real _ | scalar _ => rfl

/-- What stands for a number is this number. -/
theorem Renders.reads_right (h : Renders v w) (hv : v.Reads a) : w.Reads a := by
  cases h with
  | same _ => exact hv
  | reads hw =>
    cases hv
    exact hw

/-- A known number is the real that it is. -/
theorem reads_number {k : Number ℝ} (h : (number k).real? = some a) : Reads (.number k) a := by
  cases k with
  | int n =>
    rw [real?, Option.some.injEq] at h
    rw [← h, ← ofInt_eq]
    exact .int n
  | real b =>
    cases h
    exact .real _

/-- What is computed under the rules of a density is settled, and the other way round. -/
theorem isDense_iff_settled : v.IsDense ↔ v.Settled := by
  cases v with
  | number _ | object _ => exact ⟨fun _ => trivial, fun _ => nofun⟩
  | word _ _ | array _ _ => exact ⟨fun h => h rfl, fun h _ => h⟩

/-- A computed real in another form is still this number. -/
theorem Alike.renders (h : Alike (.scalar a) v) : Renders (.scalar a) v := by
  cases h with
  | same _ => exact .reads (.scalar a)
  | known _ => exact .reads (.real a)

/-- A number that is no integer is known or computed as a real. -/
theorem Reads.alike (h : v.Reads a) (hreal : v.integer? = none) : Alike (.scalar a) v := by
  cases h with
  | int _ | word _ => cases hreal
  | real _ => exact .known a
  | scalar _ => exact .same rfl

/-- A conversion to a scalar gives the number, unless an integer is too large. -/
theorem Reads.toScalar_eq (h : v.Reads a) (hdomain : OnlyDomainErrors v.toScalar) :
    v.toScalar = .ok a := by
  have hconverts := converts_toTensor v a h
  cases h with
  | int _ | real _ | word _ | scalar _ =>
    rcases hconverts with hok | herror
    · exact bind_eq_ok.mpr ⟨_, hok, rfl⟩
    · cases hdomain _ (bind_eq_error.mpr (Or.inl herror))

/-- The tighter one of two bounds that are numbers is the tighter number. -/
theorem Reads.tighterBound (hx : x.Reads a) (hy : y.Reads b)
    (h : tighterBound isUpper (some x) (some y) = .ok bound) :
    ∃ w, bound = some w ∧ w.Reads (tighter isUpper a b) := by
  by_cases hnumbers : ∃ k l, x = .number k ∧ y = .number l
  · obtain ⟨k, l, rfl, rfl⟩ := hnumbers
    have hchoice (p : Prop) [Decidable p] :
        Reads (.number (if p then l else k)) (if p then b else a) := by
      split
      · exact hy
      · exact hx
    cases isUpper with
    | true =>
      cases h
      refine ⟨_, rfl, ?_⟩
      rw [tighter, if_pos rfl, min_eq]
      simp only [numbersLt_iff hy.real?_eq hx.real?_eq]
      exact hchoice _
    | false =>
      cases h
      refine ⟨_, rfl, ?_⟩
      rw [tighter, if_neg Bool.false_ne_true, max_eq]
      simp only [numbersLt_iff hx.real?_eq hy.real?_eq]
      exact hchoice _
  · push Not at hnumbers
    rw [tighterBound_computed isUpper hnumbers, bind_eq_ok] at h
    obtain ⟨w, hw, h⟩ := h
    cases h
    refine ⟨w, rfl, ?_⟩
    cases isUpper with
    | true => exact Builtin.reads_of_choice ExactIntegers.min_ofInt min_choice hx hy hw
    | false => exact Builtin.reads_of_choice ExactIntegers.max_ofInt max_choice hx hy hw

/-- The tighter one of two bounds that are computed with stands for the tighter number. -/
theorem concur_tighten (isUpper : Bool) (hx : Renders x x') (hy : Renders y y') :
    Concur Renders (tighten isUpper x y) (tighten isUpper x' y') := by
  unfold tighten
  split
  · exact Builtin.concur_choice ExactIntegers.min_ofInt min_choice hx hy
  · exact Builtin.concur_choice ExactIntegers.max_ofInt max_choice hx hy

/-- Known numbers are compared, where computed ones are computed with. -/
theorem renders_tighterBound_numbers {k l : Number ℝ} (hx : Renders x (.number k))
    (hy : Renders y (.number l)) (h : tighterBound isUpper (some x) (some y) = .ok bound)
    (h' : tighterBound isUpper (some (.number k)) (some (.number l)) = .ok bound') :
    Option.Rel Renders bound bound' := by
  have hscalar {a b : ℝ} (hk : Reads (.number k) a) (hl : Reads (.number l) b)
      (hbound : bound = some (.scalar (tighter isUpper a b))) :
      Option.Rel Renders bound bound' := by
    obtain ⟨w, rfl, hw⟩ := hk.tighterBound hl h'
    rw [hbound]
    exact .some (.reads hw)
  cases hx with
  | same _ =>
    cases hy with
    | same _ =>
      rw [h] at h'
      cases h'
      cases isUpper <;> cases h <;> exact .some (.same (isDense_number _))
    | @reads _ b hl =>
      rw [tighterBound_computed isUpper (by simp [scalar]), bind_eq_ok] at h
      obtain ⟨v, hv, h⟩ := h
      cases h
      obtain ⟨a, hk, -, rfl⟩ := tighten_number_left isUpper hv
      exact hscalar (reads_number hk) hl rfl
  | @reads _ a hk =>
    cases hy with
    | same _ =>
      rw [tighterBound_computed isUpper (by simp [scalar]), bind_eq_ok] at h
      obtain ⟨v, hv, h⟩ := h
      cases h
      obtain ⟨b, hl, -, rfl⟩ := tighten_number_right isUpper hv
      exact hscalar hk (reads_number hl) rfl
    | @reads _ b hl =>
      rw [tighterBound_computed isUpper (by simp [scalar]), tighten_eq] at h
      cases h
      exact hscalar hk hl rfl

/-- The tighter one of two bounds stands for the same number as that of bounds that stand for the
same numbers. -/
theorem concur_tighterBound {b b' c c' : Option (Value ℝ)} (hb : Option.Rel Renders b b')
    (hc : Option.Rel Renders c c') (h : tighterBound isUpper b c = .ok bound) :
    Concur (Option.Rel Renders) (.ok bound) (tighterBound isUpper b' c') := by
  cases hb with
  | none =>
    cases h
    exact .ok hc
  | @some x x' hx =>
    cases hc with
    | none =>
      cases h
      exact .ok (.some hx)
    | @some y y' hy =>
      by_cases hnumbers : ∃ k l, x' = .number k ∧ y' = .number l
      · obtain ⟨k, l, rfl, rfl⟩ := hnumbers
        obtain ⟨bound', h'⟩ :
            ∃ bound', tighterBound isUpper (some (.number k)) (some (.number l)) = .ok bound' := by
          cases isUpper <;> exact ⟨_, rfl⟩
        rw [h']
        exact .ok (renders_tighterBound_numbers hx hy h h')
      · push Not at hnumbers
        have hcomputed : ∀ k l, x = .number k → y ≠ .number l := by
          rintro k l rfl rfl
          cases hx
          cases hy
          exact hnumbers k l rfl rfl
        rw [← h, tighterBound_computed isUpper hcomputed, tighterBound_computed isUpper hnumbers]
        exact (concur_tighten isUpper hx hy).bind fun _ _ _ _ hvw => .ok (.some hvw)

/-- A bound that stands for a computed real is another form of it, if it fits a word. -/
theorem Renders.stands (h : Renders v w)
    (hfits : ∀ n, w = .int n → Word.fitsSigned n = true) : Stands v w := by
  cases h with
  | same h => exact .same (isDense_iff_settled.mp h)
  | reads h =>
    refine .number ?_
    cases h with
    | int n =>
      rw [ofInt_eq]
      exact ⟨trivial, operand_int (hfits n rfl)⟩
    | real a => exact ⟨trivial, rfl⟩
    | word u => exact ⟨rfl, rfl⟩
    | scalar a => exact ⟨rfl, rfl⟩

end Value

/-! ## Supports -/

/-- Values that stand for the same numbers as the parameters give bounds that stand for the same
numbers. -/
def Family.ExactAt {α : Type} [Scalar α] (f : Family α) (ws : List (Value α)) : Prop :=
  ∀ vs, List.Forall₂ Value.Renders vs ws →
    Option.Rel Value.Renders (f.support.meaning vs).lower (f.support.meaning ws).lower ∧
      Option.Rel Value.Renders (f.support.meaning vs).upper (f.support.meaning ws).upper

/-- The bounds of a built-in family are fixed, or are parameters. -/
theorem Registry.exactAt_builtin {name : String} {f : Family ℝ}
    (h : (builtin : Registry ℝ).families.get? name = some f) (ws : List (Value ℝ)) :
    f.ExactAt ws := by
  obtain ⟨_, hmem, rfl⟩ := Table.exists_of_get?_ofList_map h
  exact fun vs hargs =>
    Builtin.related_families (fun _ => .same (Value.isDense_number _)) _ hmem vs ws hargs

namespace BoundDist

variable {d d' : BoundDist ℝ}

/-- Arithmetic on the bounds of the support is exact, and the integers among them fit words. -/
def ExactSupport (d : BoundDist ℝ) : Prop :=
  ∀ s, d.support = .ok s → s.Exact ∧ ∀ n, .int n ∈ s.bounds → Word.fitsSigned n = true

/-- Parameters and truncation bounds that stand for the same numbers give supports with bounds that
stand for the same numbers. -/
theorem Renders.concur_support (hd : d.Renders d') (hfamily : d'.family.ExactAt d'.params)
    {s : Support ℝ} (hs : d.support = .ok s) :
    Concur (fun s s' => Option.Rel Value.Renders s.lower s'.lower ∧
      Option.Rel Value.Renders s.upper s'.upper) (.ok s) d'.support := by
  obtain ⟨hlower, hupper⟩ := hfamily d.params hd.params
  unfold support at hs ⊢
  rw [hd.family, hd.params.length_eq] at hs
  split at hs
  · cases hs
  · simp only [bind_eq_ok, pure_eq_ok] at hs
    obtain ⟨lower, hl, upper, hu, rfl⟩ := hs
    have hl' := Value.concur_tighterBound hlower hd.lower hl
    have hu' := Value.concur_tighterBound hupper hd.upper hu
    change Concur _ (do
      let lower ← Except.ok lower
      let upper ← Except.ok upper
      return Support.mk lower upper) _
    exact hl'.bind fun _ _ _ _ hlower => hu'.bind fun _ _ _ _ hupper => .ok ⟨hlower, hupper⟩

/-- Distributions with parameters and bounds that stand for the same numbers have the same
support. -/
theorem Renders.sharesSupport (hd : d.Renders d') (hfamily : d'.family.ExactAt d'.params)
    (hdomain : OnlyDomainErrors d'.support) (hexact : d'.ExactSupport) : d.SharesSupport d' := by
  intro s hs
  obtain ⟨s', hs', hlower, hupper⟩ := (hd.concur_support hfamily hs).exists_of_isDomain hdomain
  obtain ⟨hexact', hfits⟩ := hexact s' hs'
  have hstands {b b' : Option (Value ℝ)} (h : Option.Rel Value.Renders b b')
      (hmem : ∀ w ∈ b'.toList, w ∈ s'.bounds) : Option.Rel Value.Stands b b' := by
    cases h with
    | none => exact .none
    | @some v w h =>
      refine .some (h.stands fun n hn => hfits n ?_)
      rw [← hn]
      exact hmem w (List.mem_singleton_self w)
  exact ⟨s', hs', ⟨hstands hlower fun w hw => List.mem_append_left _ hw,
    hstands hupper fun w hw => List.mem_append_right _ hw⟩, hexact'⟩

end BoundDist

/-! ## Transforms -/

namespace Value

variable {v w x y : Value ℝ}

/-- What is multiplied by no integer is no integer. -/
theorem integer?_mul (h : x.mul y = .ok v) (hy : y.integer? = none) : v.integer? = none := by
  unfold Value.mul repeated at h
  split at h
  · next hinteger => cases hy.symm.trans hinteger
  · repeat' split at h
    all_goals cases h
    rfl
  · cases arithmetic_eq_ok h with
    | ints | wordInt | intWord | words => cases hy
    | reals => rfl
    | combined _ hc =>
      obtain ⟨_, _, rfl⟩ := exists_array_of_combine hc
      rfl

/-- No quotient is an integer. -/
theorem integer?_quotient (h : x.quotient y = .ok v) : v.integer? = none ∧ v.IsDense := by
  unfold quotient at h
  split at h
  · obtain ⟨k, hk, rfl⟩ := map_eq_ok.mp h
    refine ⟨?_, isDense_number k⟩
    unfold quotientOfNumbers at hk
    split at hk
    · obtain ⟨_, -, rfl⟩ := map_eq_ok.mp hk
      rfl
    · simp only [bind_eq_ok] at hk
      obtain ⟨_, -, _, -, hk⟩ := hk
      split at hk
      · cases hk
      · cases hk
        rfl
  · obtain ⟨t, rfl⟩ := divide_isDensity h
    exact ⟨rfl, isDense_array t⟩

end Value

namespace Bijection

open Value

/-- The bijection goes forward by maps of reals: no slope is an integer. -/
def HasRealSlopes : Bijection ℝ → Prop
  | .identity | .log | .logit => True
  | .affine offset slope => offset.IsDense ∧ slope.IsDense ∧ slope.integer? = none
  | .compose outer inner => outer.HasRealSlopes ∧ inner.HasRealSlopes
  | .inverse _ => False

/-- Values that stand for the same number are taken to values that do. -/
theorem concur_forward {b : Bijection ℝ} (hb : b.HasRealSlopes) {x x' : Value ℝ}
    (hx : Renders x x') : Concur Renders (b.forward x) (b.forward x') := by
  induction b generalizing x x' with
  | identity => exact .ok hx
  | log => exact hx.lift _
  | logit => exact hx.lift _
  | affine offset slope =>
    obtain ⟨hoffset, hslope, hreal⟩ := hb
    rw [Bijection.forward, Bijection.forward]
    refine (hx.mul (.same hslope) ?_).bind fun u u' _ hu' hu => ?_
    · intro _ _ _ _ hn
      rw [hreal, Option.map₂_none_right] at hn
      cases hn
    · refine Renders.add (.same hoffset) hu ?_
      intro _ _ _ _ hn
      rw [integer?_mul hu' hreal, Option.map₂_none_right] at hn
      cases hn
  | compose outer inner houter hinner =>
    rw [Bijection.forward, Bijection.forward]
    exact (hinner hb.2 hx).bind fun _ _ _ _ hu => houter hb.1 hu
  | inverse _ _ => exact hb.elim

/-- An affine map by a known real has a slope that is no integer. -/
theorem hasRealSlopes_affine {offset : Value ℝ} (hoffset : offset.IsDense) (c : ℝ) :
    (affine offset (.real c)).HasRealSlopes :=
  ⟨hoffset, isDense_number _, rfl⟩

/-- The reversal of the sign has a slope that is no integer. -/
theorem hasRealSlopes_reflection : (Transform.reflection : Bijection ℝ).HasRealSlopes :=
  hasRealSlopes_affine (isDense_number _) _

end Bijection

namespace Transform

open Value Bijection

/-- The transform of a support goes forward by maps of reals. -/
theorem hasRealSlopes_ofSupport {s : Support ℝ} {t : Transform ℝ} (h : ofSupport s = .ok t)
    (hs : ∀ v ∈ s.bounds, v.IsDense) : t.map.HasRealSlopes := by
  obtain ⟨lower | lower, upper | upper⟩ := s
  · cases h
    trivial
  · have hupper : upper.IsDense := hs upper (by simp [Support.bounds])
    unfold ofSupport at h
    dsimp only at h
    split at h <;> cases h
    · exact ⟨⟨hasRealSlopes_reflection, trivial⟩, hasRealSlopes_reflection⟩
    · exact ⟨⟨hasRealSlopes_reflection, trivial⟩, hasRealSlopes_affine hupper _⟩
  · have hlower : lower.IsDense := hs lower (by simp [Support.bounds])
    unfold ofSupport at h
    dsimp only at h
    split at h <;> cases h
    · trivial
    · exact ⟨trivial, hasRealSlopes_affine (isDense_neg hlower) _⟩
  · unfold ofSupport at h
    dsimp only at h
    split at h
    · cases h
      trivial
    · simp only [generalLogit, bind_eq_ok, pure_eq_ok] at h
      obtain ⟨_, -, _, hoffset, _, hslope, rfl⟩ := h
      obtain ⟨hreal, hdense⟩ := integer?_quotient hslope
      exact ⟨trivial, (integer?_quotient hoffset).2, hdense, hreal⟩

end Transform

namespace BoundDist

open Value

variable {d d' : BoundDist ℝ} {x v u : Value ℝ}

/-- A transform takes values that stand for the same number to values that do. -/
theorem SharesSupport.concur_toUnconstrained (hd : d.SharesSupport d') {s : Support ℝ}
    (hs : d.support = .ok s) (hx : Value.Renders x v) :
    Concur Value.Renders (d'.toUnconstrained x) (d'.toUnconstrained v) := by
  obtain ⟨s', hs', hstands, -⟩ := hd s hs
  have hdense : ∀ w ∈ s'.bounds, w.IsDense := by
    have hbound {b b' : Option (Value ℝ)} (h : Option.Rel Stands b b') {w : Value ℝ}
        (hw : w ∈ b'.toList) : w.IsDense := by
      obtain ⟨_, -, h⟩ := exists_of_optionRel h hw
      rw [isDense_iff_settled]
      cases h with
      | same h => exact h
      | number h => exact h.settled
    intro w hw
    rcases List.mem_append.mp hw with hw | hw
    · exact hbound hstands.lower hw
    · exact hbound hstands.upper hw
  unfold toUnconstrained transform
  rw [hs', ok_bind]
  refine (Concur.refl _).bind fun t t' ht _ heq => ?_
  rw [← heq]
  exact Bijection.concur_forward (Transform.hasRealSlopes_ofSupport ht hdense) hx

end BoundDist

end BayesGraph
