import Mathlib
import BayesGraph.Registry
import BayesGraph.Proofs.ExactIntegers
import BayesGraph.Proofs.FiniteDoubles
import BayesGraph.Proofs.Transforms

/-!
# Known and computed reals

An evaluation computes the values of parameters, while an assignment has them as known numbers. Over
the exact reals this makes no difference: where an expression has a value with computed reals, it
has the same value with known ones (`eval_follows`). Arithmetic and all built-in functions have this
property, and it is asked of the functions that are registered (`Registry.Faithful`).

The converse does not hold, because integers beside computed values have to fit words.
-/

set_option autoImplicit false

namespace BayesGraph

open Outcome ExactReals

namespace Value

/-- What is computed is computed under the rules of a density. -/
def Settled : Value ℝ → Prop
  | .word r _ | .array r _ => r = .density
  | .number _ | .object _ => True

/-- The same value, or a computed real and the same real as a known one. -/
inductive Alike : Value ℝ → Value ℝ → Prop
  | same {v : Value ℝ} (h : v.Settled) : Alike v v
  | known (a : ℝ) : Alike (.scalar a) (.real a)

/-- If the first computation succeeds, so does the second one, with a value that is alike. -/
def Follows (x y : Except EvalError (Value ℝ)) : Prop :=
  ∀ v, x = .ok v → ∃ w, y = .ok w ∧ Alike v w

section Basic

variable {v w : Value ℝ} {x y : Except EvalError (Value ℝ)}
  {f g : Value ℝ → Except EvalError (Value ℝ)}

/-- Values that are alike are the same array of reals. -/
theorem Alike.toTensor_eq (h : Alike v w) : v.toTensor = w.toTensor := by
  cases h <;> rfl

/-- Values that are alike are the same operand. -/
theorem Alike.operand_eq (h : Alike v w) : v.operand .density = w.operand .density := by
  cases h <;> rfl

/-- Values that are alike are the same argument. -/
theorem Alike.argument_eq (h : Alike v w) : v.argument .density = w.argument .density := by
  cases h <;> rfl

/-- Values that are alike are the same computed value. -/
theorem Alike.computed_eq (h : Alike v w) :
    Builtin.computed .density v = Builtin.computed .density w := by
  cases h <;> rfl

/-- Values that are alike are the same integer, or neither is one. -/
theorem Alike.integer?_eq (h : Alike v w) : v.integer? = w.integer? := by
  cases h <;> rfl

/-- Values that are alike are both absent or neither. -/
theorem Alike.isNothing_eq (h : Alike v w) : v.isNothing = w.isNothing := by
  cases h <;> rfl

/-- Anything follows an error. -/
theorem follows_error (e : EvalError) : Follows (.error e) y := by
  intro v h
  cases h

/-- Results that are alike follow each other. -/
theorem follows_ok (h : Alike v w) : Follows (.ok v) (.ok w) := by
  intro u hu
  cases hu
  exact ⟨w, rfl, h⟩

/-- A computation with a settled value follows itself. -/
theorem follows_of_eq (h : x = y) (hsettled : ∀ v, x = .ok v → v.Settled) : Follows x y := by
  intro v hv
  exact ⟨v, h ▸ hv, .same (hsettled v hv)⟩

/-- Steps one after the other follow each other if both do. -/
theorem Follows.bind (h : Follows x y) (hfg : ∀ v w, Alike v w → Follows (f v) (g w)) :
    Follows (x >>= f) (y >>= g) := by
  intro v hv
  obtain ⟨u, hu, hv⟩ := bind_eq_ok.mp hv
  obtain ⟨u', hu', halike⟩ := h u hu
  obtain ⟨w, hw, hvw⟩ := hfg u u' halike v hv
  exact ⟨w, bind_eq_ok.mpr ⟨u', hu', hw⟩, hvw⟩

/-- An operation on the results of two computations. -/
theorem Follows.bind₂ {x' y' : Except EvalError (Value ℝ)}
    {f g : Value ℝ → Value ℝ → Except EvalError (Value ℝ)} (hx : Follows x x') (hy : Follows y y')
    (hfg : ∀ {v v' w w'}, Alike v v' → Alike w w' → Follows (f v w) (g v' w')) :
    Follows (do f (← x) (← y)) (do g (← x') (← y')) :=
  hx.bind fun _ _ hv => hy.bind fun _ _ hw => hfg hv hw

/-- A step that gives the same result in both computations. -/
theorem follows_bind_of_eq {β : Type} {s t : Except EvalError β}
    {f g : β → Except EvalError (Value ℝ)} (h : s = t) (hfg : ∀ b, Follows (f b) (g b)) :
    Follows (s >>= f) (t >>= g) := by
  subst h
  intro v hv
  obtain ⟨b, hb, hv⟩ := bind_eq_ok.mp hv
  obtain ⟨w, hw, hvw⟩ := hfg b v hv
  exact ⟨w, bind_eq_ok.mpr ⟨b, hb, hw⟩, hvw⟩

end Basic

/-! ## Arithmetic -/

section Arithmetic

variable {onInts : Int → Int → Int} {onReals : ℝ → ℝ → ℝ} {u v w x x' y y' : Value ℝ} {a : ℝ}
  {rules : Rules}

/-- An integer of at most 64 bits is no larger than a double. -/
theorem ofInt_of_small {β : Type} [Scalar β] {n : Int} (h : n.natAbs < 2 ^ 64) :
    (ofInt n : Except EvalError β) = .ok (Scalar.ofInt n) := by
  have hfinite : (Double.ofInt n).isFinite = true := Double.isFinite_ofQuotient h one_ne_zero
  unfold ofInt Double.ofInt?
  rw [if_pos hfinite]

/-- An integer of at most 64 bits is a real. -/
theorem ofInt_of_natAbs {n : Int} (h : n.natAbs < 2 ^ 64) :
    (ofInt n : Except EvalError ℝ) = .ok n :=
  (ofInt_of_small h).trans (congrArg Except.ok (ofInt_eq n))

/-- A signed word of the machine is the real. -/
theorem ofInt_of_fitsSigned {n : Int} (h : Word.fitsSigned n = true) :
    (ofInt n : Except EvalError ℝ) = .ok n := by
  rw [Word.fitsSigned_iff] at h
  exact ofInt_of_natAbs (by omega)

/-- A raw object that is no number is no operand. -/
theorem operand_object (d : Datum) (t : Tensor ℝ) :
    (Value.object d : Value ℝ).operand .density ≠ .ok t := by
  intro h
  have harray : (arrayOfObject .density d : Except EvalError (Tensor ℝ)) = .ok t := by
    cases d <;> exact h
  unfold arrayOfObject at harray
  simp at harray

/-- An operation on computed values is settled if one of them is settled and computed. -/
theorem settled_combine (h : x.combine onReals y = .ok v) (hx : x.Settled) (hy : y.Settled)
    (hcomputed : x.isKnown = false ∨ y.isKnown = false) : v.Settled := by
  have hrules : x.origin.join y.origin = .density := by
    rcases hcomputed with hc | hc
    · have horigin : x.origin = .density := by
        cases x with
        | word r w => exact hx
        | array r t => exact hx
        | number _ | object _ => cases hc
      rw [horigin]
      exact density_join _
    · have horigin : y.origin = .density := by
        cases y with
        | word r w => exact hy
        | array r t => exact hy
        | number _ | object _ => cases hc
      rw [horigin]
      exact join_density _
  unfold combine at h
  simp only [bind_eq_ok, pure_eq_ok, hrules] at h
  obtain ⟨_, -, _, -, t, -, rfl⟩ := h
  rfl

/-- The arithmetic of settled values gives settled values. -/
theorem settled_arithmetic (h : arithmetic onInts onReals x y = .ok v) (hx : x.Settled)
    (hy : y.Settled) : v.Settled := by
  cases arithmetic_eq_ok h with
  | ints | reals => trivial
  | wordInt => exact hx
  | intWord => exact hy
  | words r s =>
    obtain rfl : r = .density := hx
    exact density_join s
  | combined hcomputed hc => exact settled_combine hc hx hy hcomputed

/-- Known numbers, at least one of which is a real. -/
theorem arithmetic_real_left {k : Number ℝ} {b : ℝ} (h : ofNumber k = .ok b) :
    arithmetic onInts onReals (.real a) (.number k) = .ok (.real (onReals a b)) := by
  have hreals : (do
      let a ← (ofNumber (.real a) : Except EvalError ℝ)
      let b ← ofNumber k
      return Value.real (onReals a b)) = Except.ok (Value.real (onReals a b)) := by
    rw [h]
    rfl
  cases k <;> exact hreals

/-- A known number beside a known real is computed with as a real. -/
theorem arithmetic_real_right {k : Number ℝ} {b : ℝ} (h : ofNumber k = .ok b) :
    arithmetic onInts onReals (.number k) (.real a) = .ok (.real (onReals b a)) := by
  have hreals : (do
      let b ← ofNumber k
      let a ← (ofNumber (.real a) : Except EvalError ℝ)
      return Value.real (onReals b a)) = Except.ok (Value.real (onReals b a)) := by
    rw [h]
    rfl
  cases k <;> exact hreals

/-- A known number that is an operand is a real as it is. -/
theorem ofNumber_of_operand {k : Number ℝ} {t : Tensor ℝ}
    (h : (Value.number k).operand .density = .ok t) : ∃ b, t = .scalar b ∧ ofNumber k = .ok b := by
  cases k with
  | int n =>
    obtain ⟨b, hb, rfl⟩ := map_eq_ok.mp h
    unfold scalarOfInt at hb
    dsimp only at hb
    split at hb
    · next hfits =>
      cases hb
      refine ⟨_, rfl, ?_⟩
      rw [ofInt_eq]
      exact ofInt_of_fitsSigned hfits
    · cases hb
  | real b =>
    cases h
    exact ⟨b, rfl, rfl⟩

/-- A settled value that is computed is computed under the rules of a density. -/
theorem origin_of_computed (hx : x.Settled) (hcomputed : x.isKnown = false) :
    x.origin = .density := by
  cases x with
  | word r w => exact hx
  | array r t => exact hx
  | number _ | object _ => cases hcomputed

/-- Beside a computed value, a known real counts as a computed one. -/
theorem combine_real_left (hy : y.Settled) (hcomputed : y.isKnown = false) :
    (real a).combine onReals y = (scalar a).combine onReals y := by
  unfold combine
  rw [origin_of_computed hy hcomputed, join_density, join_density]
  rfl

/-- Beside a computed value, a known real is computed with like a computed one. -/
theorem combine_real_right (hx : x.Settled) (hcomputed : x.isKnown = false) :
    x.combine onReals (real a) = x.combine onReals (scalar a) := by
  unfold combine
  rw [origin_of_computed hx hcomputed, density_join, density_join]
  rfl

/-- A computed real beside a known number on the right gives the operation on the reals. -/
theorem combine_scalar_number {k : Number ℝ} (h : (scalar a).combine onReals (.number k) = .ok v) :
    ∃ b, ofNumber k = .ok b ∧ v = .scalar (onReals a b) := by
  have hrules : (scalar a).origin.join (Value.number k).origin = .density := rfl
  simp only [combine, hrules, bind_eq_ok, pure_eq_ok, ExactScalar.binary_eq] at h
  obtain ⟨s, hs, t, ht, z, hz, rfl⟩ := h
  cases hs
  obtain ⟨b, rfl, hb⟩ := ofNumber_of_operand ht
  cases hz
  exact ⟨b, hb, rfl⟩

/-- A computed real beside a known number on the left gives the operation on the reals. -/
theorem combine_number_scalar {k : Number ℝ}
    (h : (Value.number k).combine onReals (scalar a) = .ok v) :
    ∃ b, ofNumber k = .ok b ∧ v = .scalar (onReals b a) := by
  have hrules : (Value.number k).origin.join (scalar a).origin = .density := rfl
  simp only [combine, hrules, bind_eq_ok, pure_eq_ok, ExactScalar.binary_eq] at h
  obtain ⟨s, hs, t, ht, z, hz, rfl⟩ := h
  cases ht
  obtain ⟨b, rfl, hb⟩ := ofNumber_of_operand hs
  cases hz
  exact ⟨b, hb, rfl⟩

/-- An operation on a computed real, and the same one on the known real. -/
theorem follows_known_left (hy : y.Settled) :
    Follows (arithmetic onInts onReals (scalar a) y) (arithmetic onInts onReals (real a) y) := by
  have hcombine : arithmetic onInts onReals (scalar a) y = (scalar a).combine onReals y :=
    arithmetic_array_left _ _ _
  rw [hcombine]
  cases y with
  | number k =>
    intro v hv
    obtain ⟨b, hb, rfl⟩ := combine_scalar_number hv
    exact ⟨_, arithmetic_real_left hb, .known _⟩
  | word r w =>
    change Follows _ ((real a).combine onReals (.word r w))
    rw [combine_real_left hy rfl]
    exact follows_of_eq rfl fun v hv => settled_combine hv rfl hy (Or.inr rfl)
  | array r t =>
    rw [arithmetic_array_right, combine_real_left hy rfl]
    exact follows_of_eq rfl fun v hv => settled_combine hv rfl hy (Or.inr rfl)
  | object d =>
    intro v hv
    simp only [combine, bind_eq_ok] at hv
    obtain ⟨_, -, t, ht, -⟩ := hv
    exact absurd ht (operand_object d t)

/-- The arithmetic does not depend on whether the right operand is a known or a computed real. -/
theorem follows_known_right (hx : x.Settled) :
    Follows (arithmetic onInts onReals x (scalar a)) (arithmetic onInts onReals x (real a)) := by
  have hcombine : arithmetic onInts onReals x (scalar a) = x.combine onReals (scalar a) :=
    arithmetic_array_right _ _ _
  rw [hcombine]
  cases x with
  | number k =>
    intro v hv
    obtain ⟨b, hb, rfl⟩ := combine_number_scalar hv
    exact ⟨_, arithmetic_real_right hb, .known _⟩
  | word r w =>
    change Follows _ ((Value.word r w).combine onReals (real a))
    rw [combine_real_right hx rfl]
    exact follows_of_eq rfl fun v hv => settled_combine hv hx rfl (Or.inl rfl)
  | array r t =>
    rw [arithmetic_array_left, combine_real_right hx rfl]
    exact follows_of_eq rfl fun v hv => settled_combine hv hx rfl (Or.inl rfl)
  | object d =>
    intro v hv
    simp only [combine, bind_eq_ok] at hv
    obtain ⟨t, ht, -⟩ := hv
    have hrules : (Value.object d : Value ℝ).origin.join (scalar a).origin = .density := rfl
    rw [hrules] at ht
    exact absurd ht (operand_object d t)

/-- Arithmetic does not tell known reals from computed ones. -/
theorem follows_arithmetic (hx : Alike x x') (hy : Alike y y') :
    Follows (arithmetic onInts onReals x y) (arithmetic onInts onReals x' y') := by
  cases hx with
  | same hx =>
    cases hy with
    | same hy => exact follows_of_eq rfl fun v hv => settled_arithmetic hv hx hy
    | known b => exact follows_known_right hx
  | known a =>
    cases hy with
    | same hy => exact follows_known_left hy
    | known b =>
      intro v hv
      cases hv
      rw [ExactScalar.binary_eq]
      exact ⟨_, rfl, .known _⟩

/-- Texts and lists can be joined, and anything else can be added as numbers are. -/
theorem add_eq_arithmetic (h : ∀ d e, x = .object d → y ≠ .object e) :
    x.add y = arithmetic (· + ·) (· + ·) x y := by
  cases x with
  | object d =>
    cases y with
    | object e => exact absurd rfl (h d e rfl)
    | number _ | word _ _ | array _ _ => rfl
  | number _ | word _ _ | array _ _ => cases y <;> rfl

/-- Texts and lists that are put together are settled. -/
theorem settled_object_add {d e : Datum} (h : (Value.object d : Value ℝ).add (.object e) = .ok v) :
    v.Settled := by
  unfold add at h
  dsimp only at h
  split at h
  · cases h
    trivial
  · cases h

/-- Sums of values that are alike follow each other. -/
theorem follows_add (hx : Alike x x') (hy : Alike y y') : Follows (x.add y) (x'.add y') := by
  by_cases hobjects : ∃ d e, x = .object d ∧ y = .object e
  · obtain ⟨d, e, rfl, rfl⟩ := hobjects
    cases hx
    cases hy
    exact follows_of_eq rfl fun v hv => settled_object_add hv
  · push Not at hobjects
    have hobjects' : ∀ d e, x' = .object d → y' ≠ .object e := by
      intro d e hd he
      subst hd he
      cases hx
      cases hy
      exact hobjects d e rfl rfl
    rw [add_eq_arithmetic hobjects, add_eq_arithmetic hobjects']
    exact follows_arithmetic hx hy

/-- Differences of values that are alike follow each other. -/
theorem follows_sub (hx : Alike x x') (hy : Alike y y') : Follows (x.sub y) (x'.sub y') :=
  follows_arithmetic hx hy

/-- A real repeats nothing. -/
theorem mul_scalar_left (a : ℝ) (y : Value ℝ) :
    (scalar a).mul y = arithmetic (· * ·) (· * ·) (scalar a) y := by
  cases y <;> rfl

/-- A product with a computed real on the right is arithmetic, as a text cannot be repeated by it.
-/
theorem mul_scalar_right (a : ℝ) (x : Value ℝ) :
    x.mul (scalar a) = arithmetic (· * ·) (· * ·) x (scalar a) := by
  cases x with
  | number k => cases k <;> rfl
  | word _ _ | array _ _ | object _ => rfl

/-- A product with a known real on the left is arithmetic. -/
theorem mul_real_left (a : ℝ) (y : Value ℝ) :
    (real a).mul y = arithmetic (· * ·) (· * ·) (real a) y := by
  cases y <;> rfl

/-- A product with a known real on the right is arithmetic. -/
theorem mul_real_right (a : ℝ) (x : Value ℝ) :
    x.mul (real a) = arithmetic (· * ·) (· * ·) x (real a) := by
  cases x with
  | number k => cases k <;> rfl
  | word _ _ | array _ _ | object _ => rfl

/-- A repeated text or list is settled. -/
theorem settled_repeated {d : Datum} {n : Int} (h : (repeated d n : Except _ (Value ℝ)) = .ok v) :
    v.Settled := by
  unfold repeated at h
  split at h
  · cases h
  · split at h
    · cases h
      trivial
    · cases h

/-- The product of settled values is settled. -/
theorem settled_mul (h : x.mul y = .ok v) (hx : x.Settled) (hy : y.Settled) : v.Settled := by
  unfold mul at h
  split at h
  · exact settled_repeated h
  · exact settled_repeated h
  · exact settled_arithmetic h hx hy

/-- Products of values that are alike follow each other. -/
theorem follows_mul (hx : Alike x x') (hy : Alike y y') : Follows (x.mul y) (x'.mul y') := by
  cases hx with
  | same hx =>
    cases hy with
    | same hy => exact follows_of_eq rfl fun v hv => settled_mul hv hx hy
    | known b =>
      rw [mul_scalar_right, mul_real_right]
      exact follows_known_right hx
  | known a =>
    rw [mul_scalar_left, mul_real_left]
    exact follows_arithmetic (.known a) hy

/-- Negations of values that are alike follow each other. -/
theorem follows_negate (hx : Alike x x') : Follows x.negate x'.negate := by
  cases hx with
  | same hx =>
    refine follows_of_eq rfl fun v hv => ?_
    cases x with
    | number k => cases k <;> cases hv <;> trivial
    | word r w =>
      cases hv
      exact hx
    | array r t =>
      cases hv
      exact hx
    | object d => cases hv
  | known a => exact follows_ok (.known (-a))

/-- Division and powers convert their operands to reals. -/
theorem follows_divide (hx : Alike x x') (hy : Alike y y') :
    Follows (x.divide .density y) (x'.divide .density y') := by
  refine follows_of_eq ?_ fun v hv => ?_
  · rw [divide, divide, hx.operand_eq, hy.operand_eq]
  · simp only [divide, bind_eq_ok, pure_eq_ok] at hv
    obtain ⟨_, -, _, -, _, -, rfl⟩ := hv
    rfl

/-- Values that are alike are the same base of a power. -/
theorem Alike.base_eq (h : Alike v w) : v.base .density = w.base .density := by
  cases h <;> rfl

/-- Powers of values that are alike follow each other. -/
theorem follows_power (hx : Alike x x') (hy : Alike y y') :
    Follows (x.power .density y) (x'.power .density y') := by
  unfold power
  rw [hx.base_eq, hy.integer?_eq]
  refine follows_bind_of_eq rfl fun t => ?_
  cases y'.integer? with
  | some n =>
    exact follows_of_eq rfl fun v hv => by
      cases hv
      rfl
  | none =>
    refine follows_bind_of_eq hy.operand_eq fun s => follows_of_eq rfl fun v hv => ?_
    simp only [bind_eq_ok, pure_eq_ok] at hv
    obtain ⟨_, -, rfl⟩ := hv
    rfl

/-- The entries of a block are converted to reals. -/
theorem settled_block {vs : List (Value ℝ)} {shape : List Nat}
    (h : block .density vs shape = .ok v) : v.Settled := by
  unfold block at h
  rw [bind_eq_ok] at h
  obtain ⟨ts, -, h⟩ := h
  split at h
  · cases h
  · split at h <;> cases h
    rfl

end Arithmetic

/-! ## Comparisons -/

section Comparison

variable {u v w x x' y y' : Value ℝ} {a b : ℝ} {k l : Number ℝ} {t : Tensor Bool}
  {onNumbers : Number ℝ → Number ℝ → Bool} {onReals : ℝ → ℝ → Bool}

/-- Known numbers are in the order of the reals. -/
theorem numbersLe_iff (hk : (number k).real? = some a) (hl : (number l).real? = some b) :
    numbersLe k l = true ↔ a ≤ b := by
  cases k with
  | int m =>
    obtain rfl : (m : ℝ) = a := Option.some.inj hk
    cases l with
    | int n =>
      obtain rfl : (n : ℝ) = b := Option.some.inj hl
      simp [numbersLe]
    | real y =>
      obtain rfl : y = b := Option.some.inj hl
      simp only [numbersLe, toInt?_floor, decide_eq_true_eq]
      exact Int.le_floor
  | real x =>
    obtain rfl : x = a := Option.some.inj hk
    cases l with
    | int n =>
      obtain rfl : (n : ℝ) = b := Option.some.inj hl
      simp only [numbersLe, toInt?_floor, decide_eq_true_eq]
      rw [neg_le, Int.le_floor]
      push_cast
      exact neg_le_neg_iff
    | real y =>
      obtain rfl : y = b := Option.some.inj hl
      exact decide_eq_true_iff

/-- Known numbers are equal if and only if the reals are. -/
theorem numbersEq_iff (hk : (number k).real? = some a) (hl : (number l).real? = some b) :
    numbersEq k l = true ↔ a = b := by
  rw [numbersEq, Bool.and_eq_true, numbersLe_iff hk hl, numbersLe_iff hl hk]
  exact ⟨fun h => le_antisymm h.1 h.2, fun h => ⟨h.le, h.ge⟩⟩

/-- Known numbers are ordered as the reals are. -/
theorem numbersLt_iff (hk : (number k).real? = some a) (hl : (number l).real? = some b) :
    numbersLt k l = true ↔ a < b := by
  rw [numbersLt, Bool.and_eq_true, Bool.not_eq_true', ← Bool.not_eq_true, numbersLe_iff hk hl,
    numbersLe_iff hl hk, lt_iff_le_not_ge]

/-- Numbers are related as the reals that they stand for. -/
def Represents (onNumbers : Number ℝ → Number ℝ → Bool) (onReals : ℝ → ℝ → Bool) : Prop :=
  ∀ k l a b, (number k).real? = some a → (number l).real? = some b → onNumbers k l = onReals a b

/-- The order of known numbers represents that of the reals. -/
theorem represents_atLeast :
    Represents (fun k l => numbersLe l k) (fun a b : ℝ => Scalar.le b a) := by
  intro k l a b hk hl
  rw [Bool.eq_iff_iff, numbersLe_iff hl hk]
  exact decide_eq_true_iff.symm

/-- The equality of known numbers represents that of the reals. -/
theorem represents_equals : Represents numbersEq (Scalar.eq : ℝ → ℝ → Bool) := by
  intro k l a b hk hl
  rw [Bool.eq_iff_iff, numbersEq_iff hk hl]
  exact decide_eq_true_iff.symm

/-- Reals of a density are related to any operand. -/
theorem relate_array_left (s : Tensor ℝ) (y : Value ℝ) :
    relate onNumbers onReals (.array .density s) y = (do
      let t ← y.operand .density
      zip .density onReals s t) := by
  cases y with
  | number k => cases k <;> rfl
  | word r w => cases r <;> rfl
  | array r t => cases r <;> rfl
  | object d => rfl

/-- Beside an array on the right, a comparison is one of operands, entry by entry. -/
theorem relate_array_right (s : Tensor ℝ) (x : Value ℝ) :
    relate onNumbers onReals x (.array .density s) = (do
      let t ← x.operand .density
      zip .density onReals t s) := by
  cases x with
  | number k => cases k <;> rfl
  | word r w => cases r <;> rfl
  | array r t => cases r <;> rfl
  | object d => rfl

/-- Where a computed real is related to something, so is the known one. -/
theorem relate_real_left (hreals : Represents onNumbers onReals) (hy : y.Settled)
    (h : relate onNumbers onReals (scalar a) y = .ok t) :
    relate onNumbers onReals (real a) y = .ok t := by
  rw [scalar, relate_array_left, bind_eq_ok] at h
  obtain ⟨s, hs, hzip⟩ := h
  cases y with
  | number k =>
    obtain ⟨b, rfl, hb⟩ := ofNumber_of_operand hs
    cases hzip
    exact congrArg (fun c => Except.ok (Tensor.scalar c)) (hreals _ _ _ _ rfl (ofNumber_eq_ok hb))
  | word r w =>
    obtain rfl : r = .density := hy
    exact bind_eq_ok.mpr ⟨.scalar a, rfl, bind_eq_ok.mpr ⟨s, hs, hzip⟩⟩
  | array r u =>
    obtain rfl : r = .density := hy
    rw [relate_array_right]
    cases hs
    exact hzip
  | object d => exact absurd hs (operand_object d s)

/-- A comparison with a computed real on the right is the same with a known one. -/
theorem relate_real_right (hreals : Represents onNumbers onReals) (hx : x.Settled)
    (h : relate onNumbers onReals x (scalar a) = .ok t) :
    relate onNumbers onReals x (real a) = .ok t := by
  rw [scalar, relate_array_right, bind_eq_ok] at h
  obtain ⟨s, hs, hzip⟩ := h
  cases x with
  | number k =>
    obtain ⟨b, rfl, hb⟩ := ofNumber_of_operand hs
    cases hzip
    exact congrArg (fun c => Except.ok (Tensor.scalar c)) (hreals _ _ _ _ (ofNumber_eq_ok hb) rfl)
  | word r w =>
    obtain rfl : r = .density := hx
    exact bind_eq_ok.mpr ⟨s, hs, bind_eq_ok.mpr ⟨.scalar a, rfl, hzip⟩⟩
  | array r u =>
    obtain rfl : r = .density := hx
    rw [relate_array_left]
    cases hs
    exact hzip
  | object d => exact absurd hs (operand_object d s)

/-- Comparisons do not tell known reals from computed ones. -/
theorem relate_alike (hreals : Represents onNumbers onReals) (hx : Alike x x') (hy : Alike y y')
    (h : relate onNumbers onReals x y = .ok t) : relate onNumbers onReals x' y' = .ok t := by
  cases hx with
  | same hx =>
    cases hy with
    | same hy => exact h
    | known b => exact relate_real_right hreals hx h
  | known a =>
    cases hy with
    | same hy => exact relate_real_left hreals hy h
    | known b => exact relate_real_left hreals trivial (relate_real_right hreals rfl h)

/-- Comparisons of values that are alike follow each other. -/
theorem follows_atLeast (hx : Alike x x') (hy : Alike y y') :
    Follows (x.atLeast .density y) (x'.atLeast .density y') := by
  intro v hv
  obtain ⟨t, ht, rfl⟩ := map_eq_ok.mp hv
  exact ⟨_, map_eq_ok.mpr ⟨t, relate_alike represents_atLeast hx hy ht, rfl⟩, .same rfl⟩

/-- Unless one side is a raw object, equality is a comparison of numbers. -/
theorem equals_eq_relate (hx : ∀ d, x ≠ .object d) (hy : ∀ d, y ≠ .object d) :
    x.equals .density y = (do return indicators .density (← relate numbersEq Scalar.eq x y)) := by
  cases x with
  | object d => exact absurd rfl (hx d)
  | number _ | word _ _ | array _ _ =>
    cases y with
    | object d => exact absurd rfl (hy d)
    | number _ | word _ _ | array _ _ => rfl

/-- The result of an equality is settled. -/
theorem settled_equals (h : x.equals .density y = .ok v) : v.Settled := by
  unfold equals at h
  split at h
  all_goals
    simp only [bind_eq_ok, pure_eq_ok] at h
    first
    | obtain rfl := h
      rfl
    | obtain ⟨_, -, rfl⟩ := h
      rfl

/-- Two values that are no objects are compared as numbers. -/
theorem follows_equals_of_relate (hx : Alike x x') (hy : Alike y y') (hxd : ∀ d, x ≠ .object d)
    (hyd : ∀ d, y ≠ .object d) : Follows (x.equals .density y) (x'.equals .density y') := by
  have hxd' : ∀ d, x' ≠ .object d := by
    rintro d rfl
    cases hx
    exact hxd d rfl
  have hyd' : ∀ d, y' ≠ .object d := by
    rintro d rfl
    cases hy
    exact hyd d rfl
  rw [equals_eq_relate hxd hyd, equals_eq_relate hxd' hyd']
  intro v hv
  simp only [bind_eq_ok, pure_eq_ok] at hv ⊢
  obtain ⟨t, ht, rfl⟩ := hv
  exact ⟨_, ⟨t, relate_alike represents_equals hx hy ht, rfl⟩, .same rfl⟩

/-- Equalities of values that are alike follow each other. -/
theorem follows_equals (hx : Alike x x') (hy : Alike y y') :
    Follows (x.equals .density y) (x'.equals .density y') := by
  by_cases hxd : ∃ d, x = .object d
  · obtain ⟨d, rfl⟩ := hxd
    cases hx
    cases hy with
    | same hy => exact follows_of_eq rfl fun v hv => settled_equals hv
    | known b => exact follows_of_eq rfl fun v hv => settled_equals hv
  · by_cases hyd : ∃ d, y = .object d
    · obtain ⟨d, rfl⟩ := hyd
      cases hy
      cases hx with
      | same hx => exact follows_of_eq rfl fun v hv => settled_equals hv
      | known a => exact follows_of_eq rfl fun v hv => settled_equals hv
    · push Not at hxd hyd
      exact follows_equals_of_relate hx hy hxd hyd

end Comparison

end Value

end BayesGraph
