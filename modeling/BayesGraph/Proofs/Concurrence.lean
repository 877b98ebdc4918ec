import BayesGraph.Proofs.ExactIntegers
import BayesGraph.Proofs.Transforms

/-!
# Known numbers and computed ones

A number can be an integer or a real that is known before anything is computed, a word that a
function computed from integers, or a computed real. In exact arithmetic this makes no difference:
operations on values that stand for the same numbers have results that stand for the same numbers.
Two things can intervene. A known integer can be too large for the format that it is converted to,
which is an error and no domain error; and the arithmetic of words is that of the integers modulo
`2 ^ 64`, so that a result is exact only where it does not wrap around (`Value.IsExact`).

Two computations concur (`Concur`) if their results are related or they end with the same error, as
long as neither of them ends with an error that is no domain error.
-/

set_option autoImplicit false

namespace BayesGraph

open Outcome

/-- Does the error say that a function was called outside its domain? -/
def EvalError.isDomain : EvalError → Bool
  | .domain _ | .zeroDivision => true
  | _ => false

/-- A computation has no other error than that a function is called outside its domain. -/
def OnlyDomainErrors {β : Type} (x : Except EvalError β) : Prop :=
  ∀ e, x = .error e → e.isDomain = true

/-- The results of two computations are related, or they have the same error, unless one of them
has an error that is no domain error. -/
inductive Concur {β γ : Type} (R : β → γ → Prop) : Except EvalError β → Except EvalError γ → Prop
  | ok {v : β} {w : γ} (h : R v w) : Concur R (.ok v) (.ok w)
  | error (e : EvalError) : Concur R (.error e) (.error e)
  | left {e : EvalError} (h : e.isDomain = false) (y : Except EvalError γ) : Concur R (.error e) y
  | right {e : EvalError} (h : e.isDomain = false) (x : Except EvalError β) : Concur R x (.error e)

namespace Concur

variable {α β γ δ : Type} {R : α → β → Prop} {S : γ → δ → Prop}

/-- Equal computations concur if their result is related to itself. -/
theorem of_eq {R : α → α → Prop} {x y : Except EvalError α} (h : x = y)
    (hok : ∀ v, x = .ok v → R v v) : Concur R x y := by
  subst h
  cases x with
  | ok v => exact .ok (hok v rfl)
  | error e => exact .error e

/-- A computation concurs with itself. -/
theorem refl (x : Except EvalError α) : Concur (· = ·) x x := of_eq rfl fun _ _ => rfl

/-- The relation of the results can be weakened. -/
theorem mono {R' : α → β → Prop} {x : Except EvalError α} {y : Except EvalError β}
    (h : Concur R x y) (hR : ∀ v w, R v w → R' v w) : Concur R' x y := by
  cases h with
  | ok h => exact .ok (hR _ _ h)
  | error e => exact .error e
  | left h y => exact .left h y
  | right h x => exact .right h x

/-- Steps one after the other concur if both do, the second for all related results of the first. -/
theorem bind {x : Except EvalError α} {y : Except EvalError β} {f : α → Except EvalError γ}
    {g : β → Except EvalError δ} (h : Concur R x y)
    (hfg : ∀ v w, x = .ok v → y = .ok w → R v w → Concur S (f v) (g w)) :
    Concur S (x >>= f) (y >>= g) := by
  cases h with
  | ok h => exact hfg _ _ rfl rfl h
  | error e => exact .error e
  | left h y => exact .left h _
  | right h x => exact .right h _

/-- A step whose results are equal. -/
theorem bind_eq {x y : Except EvalError α} {f : α → Except EvalError γ}
    {g : α → Except EvalError δ} (h : Concur (· = ·) x y) (hfg : ∀ v, Concur S (f v) (g v)) :
    Concur S (x >>= f) (y >>= g) :=
  h.bind fun v _ _ _ hvw => hvw ▸ hfg v

/-- Functions of the results keep computations concurrent. -/
theorem map {x : Except EvalError α} {y : Except EvalError β} {f : α → γ} {g : β → δ}
    (h : Concur R x y) (hfg : ∀ v w, R v w → S (f v) (g w)) : Concur S (x.map f) (y.map g) := by
  cases h with
  | ok h => exact .ok (hfg _ _ h)
  | error e => exact .error e
  | left h y => exact .left h _
  | right h x => exact .right h _

/-- Steps for the members of two lists. -/
theorem mapM {f : α → Except EvalError γ} {g : β → Except EvalError δ} {xs : List α} {ys : List β}
    (h : List.Forall₂ (fun x y => Concur S (f x) (g y)) xs ys) :
    Concur (List.Forall₂ S) (xs.mapM f) (ys.mapM g) := by
  induction h with
  | nil => exact .ok .nil
  | cons hxy _ ih =>
    simp only [List.mapM_cons]
    exact hxy.bind fun v w _ _ hvw => ih.bind fun vs ws _ _ hvws => .ok (.cons hvw hvws)

/-- A step for something that may be absent. -/
theorem optionMapM {f : α → Except EvalError γ} {g : β → Except EvalError δ} {x : Option α}
    {y : Option β} (h : Option.Rel (fun x y => Concur S (f x) (g y)) x y) :
    Concur (Option.Rel S) (x.mapM f) (y.mapM g) := by
  cases h with
  | none => exact .ok .none
  | some h => exact h.map fun v w hvw => .some hvw

/-- What concurs with a result has a related result, if it has no other error than a domain
error. -/
theorem exists_of_isDomain {v : α} {y : Except EvalError β} (h : Concur R (.ok v) y)
    (hy : OnlyDomainErrors y) : ∃ w, y = .ok w ∧ R v w := by
  cases h with
  | ok h => exact ⟨_, rfl, h⟩
  | right h x => rw [hy _ rfl] at h; cases h

/-- If neither computation has another error than a domain error, both have related results or
the same error. -/
theorem cases_of_isDomain {x : Except EvalError α} {y : Except EvalError β} (h : Concur R x y)
    (hx : OnlyDomainErrors x) (hy : OnlyDomainErrors y) :
    (∃ v w, x = .ok v ∧ y = .ok w ∧ R v w) ∨ ∃ e, x = .error e ∧ y = .error e := by
  cases h with
  | ok h => exact Or.inl ⟨_, _, rfl, rfl, h⟩
  | error e => exact Or.inr ⟨e, rfl, rfl⟩
  | left h y => rw [hx _ rfl] at h; cases h
  | right h x => rw [hy _ rfl] at h; cases h

end Concur

/-! ## Values that stand for the same numbers -/

namespace Value

variable {α : Type}

/-- What is computed is computed under the rules of a density. -/
def IsDense (v : Value α) : Prop := v.isKnown = false → v.origin = .density

/-- Reals of a density are computed under its rules. -/
theorem isDense_array (t : Tensor α) : IsDense (.array .density t) := fun _ => rfl

/-- A known number is not computed. -/
theorem isDense_number (n : Number α) : IsDense (.number n) := nofun

/-- An object is not computed. -/
theorem isDense_object (d : Datum) : IsDense (.object d : Value α) := nofun

variable [Scalar α]

/-- The value is a number, known or computed. -/
inductive Reads : Value α → α → Prop
  | int (n : Int) : Reads (.int n) (Scalar.ofInt n)
  | real (a : α) : Reads (.real a) a
  | word (w : Word) : Reads (.word .density w) (Scalar.ofInt w.toInt)
  | scalar (a : α) : Reads (.scalar a) a

/-- The same value, or a computed real and the same number in another form. -/
inductive Renders : Value α → Value α → Prop
  | same {v : Value α} (h : v.IsDense) : Renders v v
  | reads {v : Value α} {a : α} (h : v.Reads a) : Renders (.scalar a) v

section Conversions

variable {u v w : Value α} {a : α}

/-- A value is one number. -/
theorem Reads.unique {b : α} (h : v.Reads a) (h' : v.Reads b) : a = b := by
  cases h <;> cases h' <;> rfl

/-- A number that is computed is computed under the rules of a density. -/
theorem Reads.isDense (h : v.Reads a) : v.IsDense := by
  cases h with
  | int _ | real _ => exact isDense_number _
  | word w => exact fun _ => rfl
  | scalar a => exact isDense_array _

/-- A value that is computed under the rules of a density is a number, an array or an object. -/
theorem IsDense.cases (h : v.IsDense) :
    (∃ a, v.Reads a) ∨ (∃ t, v = .array .density t) ∨ ∃ d, v = .object d := by
  match v with
  | .number (.int n) => exact Or.inl ⟨_, .int n⟩
  | .number (.real x) => exact Or.inl ⟨_, .real x⟩
  | .word r w =>
    obtain rfl : r = .density := h rfl
    exact Or.inl ⟨_, .word w⟩
  | .array r t =>
    obtain rfl : r = .density := h rfl
    exact Or.inr (Or.inl ⟨t, rfl⟩)
  | .object d => exact Or.inr (Or.inr ⟨d, rfl⟩)

/-- An integer that overflows is an error that is no domain error. -/
theorem ofInt_cases (n : Int) :
    (ofInt n : Except EvalError α) = .ok (Scalar.ofInt n) ∨
      (ofInt n : Except EvalError α) = .error .overflow := by
  unfold ofInt
  split
  · exact Or.inl rfl
  · exact Or.inr rfl

/-- The result is a given scalar, unless an integer is too large. -/
def GivesScalar {β : Type} (result : Except EvalError (Tensor β)) (x : β) : Prop :=
  result = .ok (.scalar x) ∨ result = .error .overflow

/-- A conversion to an array of reals gives a number as it is. -/
def Converts (f : Value α → Except EvalError (Tensor α)) : Prop :=
  ∀ v a, v.Reads a → GivesScalar (f v) a

/-- The conversion to an array of reals. -/
theorem converts_toTensor : Converts (toTensor : Value α → _) := by
  intro v a h
  cases h with
  | int n =>
    change GivesScalar ((ofInt n).map Tensor.scalar) (Scalar.ofInt n)
    rcases ofInt_cases (α := α) n with h | h <;> rw [h]
    · exact Or.inl rfl
    · exact Or.inr rfl
  | real _ | word _ | scalar _ => exact Or.inl rfl

/-- A known integer gives its scalar, unless it is too large. -/
theorem givesScalar_ofInt (n : Int) :
    GivesScalar ((scalarOfInt .density n).map Tensor.scalar) (Scalar.ofInt n : α) := by
  unfold scalarOfInt
  dsimp only
  split
  · exact Or.inl rfl
  · exact Or.inr rfl

/-- The conversion to an operand. -/
theorem converts_operand : Converts (operand .density : Value α → _) := by
  intro v a h
  cases h with
  | int n => exact givesScalar_ofInt n
  | real _ | word _ | scalar _ => exact Or.inl rfl

/-- The conversion to an argument. -/
theorem converts_argument : Converts (argument .density : Value α → _) := by
  intro v a h
  cases h with
  | int n => exact givesScalar_ofInt n
  | real _ | word _ | scalar _ => exact Or.inl rfl

/-- Conversions of values that stand for the same numbers concur. -/
theorem Renders.convert {f : Value α → Except EvalError (Tensor α)}
    (h : Renders v w) (hf : Converts f) (hscalar : ∀ a, f (.scalar a) = .ok (.scalar a)) :
    Concur (· = ·) (f v) (f w) := by
  cases h with
  | same _ => exact .refl _
  | reads h =>
    rw [hscalar]
    rcases hf _ _ h with h | h <;> rw [h]
    · exact .ok rfl
    · exact .right rfl _

/-- A value in another form is the same array of reals. -/
theorem Renders.toTensor (h : Renders v w) : Concur (· = ·) v.toTensor w.toTensor :=
  h.convert converts_toTensor fun _ => rfl

/-- A value in another form is the same operand. -/
theorem Renders.operand (h : Renders v w) :
    Concur (· = ·) (v.operand .density) (w.operand .density) :=
  h.convert converts_operand fun _ => rfl

/-- A value in another form is the same argument. -/
theorem Renders.argument (h : Renders v w) :
    Concur (· = ·) (v.argument .density) (w.argument .density) :=
  h.convert converts_argument fun _ => rfl

end Conversions

/-! ## Arithmetic -/

/-- A result that is a word is the integer that is expected, if an integer is expected: the
arithmetic of words did not wrap around. -/
def IsExact (result : Except EvalError (Value α)) (expected : Option Int) : Prop :=
  ∀ r w n, result = .ok (.word r w) → expected = some n → w.toInt = n

/-- The result is a number, unless an integer is too large. -/
def Gives (result : Except EvalError (Value α)) (a : α) : Prop :=
  (∃ v, result = .ok v ∧ v.Reads a) ∨ result = .error .overflow

section Arithmetic

variable {onInts : Int → Int → Int} {f : α → α → α}
  {v w x x' y y' : Value α} {a b : α} {d : Datum}

/-- An operation on integers is the same as the one on scalars. -/
def Extends (onInts : Int → Int → Int) (f : α → α → α) : Prop :=
  ∀ m n, Scalar.ofInt (onInts m n) = f (Scalar.ofInt m) (Scalar.ofInt n)

/-- A computed number concurs with what gives the same number. -/
theorem Gives.concur {result : Except EvalError (Value α)} (h : Gives result a) :
    Concur Renders (.ok (.scalar a)) result := by
  obtain ⟨v, rfl, hv⟩ | rfl := h
  · exact .ok (.reads hv)
  · exact .right rfl _

/-- A word in the result of an operation on two integers. -/
theorem gives_word {u : Word} {m n : Int} (hf : Extends onInts f)
    (hexact : u.toInt = onInts m n) :
    Gives (.ok (.word .density u)) (f (Scalar.ofInt m) (Scalar.ofInt n)) := by
  refine Or.inl ⟨_, rfl, ?_⟩
  rw [← hf, ← hexact]
  exact .word u

/-- An integer beside a word gives the expected scalar, unless it is too large or wraps around. -/
theorem gives_besideWord {u : Word} {k m n : Int} (hf : Extends onInts f)
    (hexact : IsExact (besideWord .density u k (onInts m n) : Except EvalError (Value α))
      (some (onInts m n))) :
    Gives (besideWord .density u k (onInts m n)) (f (Scalar.ofInt m) (Scalar.ofInt n)) := by
  unfold besideWord at hexact ⊢
  split at hexact
  · next hfits =>
    rw [if_pos hfits]
    exact gives_word hf (hexact _ _ _ rfl rfl)
  · next hfits =>
    rw [if_neg hfits]
    exact Or.inr rfl

/-- Beside an array on the left, arithmetic is that of reals. -/
theorem arithmetic_of_array_left (t : Tensor α) (y : Value α) :
    arithmetic onInts f (.array .density t) y = combine f (.array .density t) y := by
  rcases y with (_ | _) | _ | _ | _ <;> rfl

/-- Beside an array on the right, arithmetic is that of reals. -/
theorem arithmetic_of_array_right (x : Value α) (t : Tensor α) :
    arithmetic onInts f x (.array .density t) = combine f x (.array .density t) := by
  rcases x with (_ | _) | _ | _ | _ <;> rfl

/-- A raw object that is no number is no operand. -/
theorem operand_of_object (d : Datum) :
    (Value.object d : Value α).operand .density = .error .wrongKind := by
  cases d <;> rfl

/-- What is computed from values of a density is computed under its rules. -/
theorem isDense_combine (h : combine f x y = .ok v) (hrules : x.origin.join y.origin = .density) :
    v.IsDense := by
  unfold combine at h
  simp only [bind_eq_ok, pure_eq_ok, hrules] at h
  obtain ⟨_, -, _, -, t, -, rfl⟩ := h
  exact isDense_array t

/-- The arithmetic of dense values is dense. -/
theorem isDense_arithmetic (h : arithmetic onInts f x y = .ok v) (hx : x.IsDense)
    (hy : y.IsDense) : v.IsDense := by
  cases arithmetic_eq_ok h with
  | ints | reals => exact isDense_number _
  | wordInt => exact fun _ => hx rfl
  | intWord => exact fun _ => hy rfl
  | words r s =>
    obtain rfl : r = .density := hx rfl
    exact fun _ => density_join s
  | combined hcomputed hc =>
    refine isDense_combine hc ?_
    rcases hcomputed with hknown | hknown
    · rw [hx hknown, density_join]
    · rw [hy hknown, join_density]

/-- Operations on an array and what stands for the same number. -/
theorem concur_combine (hx : Renders x x') (hy : Renders y y')
    (hrules : x.origin.join y.origin = .density) (hrules' : x'.origin.join y'.origin = .density) :
    Concur Renders (combine f x y) (combine f x' y') := by
  unfold combine
  rw [hrules, hrules']
  exact .bind_eq hx.operand fun s => .bind_eq hy.operand fun t =>
    .of_eq rfl fun v hv => by
      obtain ⟨u, -, hu⟩ := bind_eq_ok.mp hv
      cases hu
      exact .same (isDense_array u)

/-- An object beside a number is refused. -/
theorem arithmetic_object_left (hy : y.Reads b) :
    arithmetic onInts f (.object d) y = .error .wrongKind := by
  have hcombine (z : Value α) (hrules : z.origin = .density) :
      combine f (.object d) z = .error .wrongKind := by
    unfold combine
    simp only [hrules, join_density, operand_of_object]
    rfl
  cases hy with
  | int _ | real _ => rfl
  | word w => exact hcombine _ rfl
  | scalar b => exact hcombine _ rfl

/-- A number beside a raw object that is no number is an error. -/
theorem arithmetic_object_right (onInts : Int → Int → Int) (f : α → α → α)
    (d : Datum) (hx : x.Reads a) :
    arithmetic onInts f x (.object d) = .error .wrongKind ∨
      arithmetic onInts f x (.object d) = .error .overflow := by
  have hcombine (z : Value α) (hz : z.Reads a) (hrules : z.origin = .density) :
      combine f z (.object d) = .error .wrongKind ∨
        combine f z (.object d) = .error .overflow := by
    unfold combine
    simp only [hrules, density_join, operand_of_object]
    rcases converts_operand z a hz with h | h <;> rw [h]
    · exact Or.inl rfl
    · exact Or.inr rfl
  cases hx with
  | int _ | real _ => exact Or.inl rfl
  | word w => exact hcombine _ (.word w) rfl
  | scalar a => exact hcombine _ (.scalar a) rfl

variable [ExactIntegers α]

/-- Beside a computed value, numbers are converted to scalars. -/
theorem combine_reads (hx : x.Reads a) (hy : y.Reads b)
    (hrules : x.origin.join y.origin = .density) :
    x.combine f y = .ok (.scalar (f a b)) ∨ x.combine f y = .error .overflow := by
  unfold combine
  simp only [hrules, ExactScalar.binary_eq]
  rcases converts_operand x a hx with h | h
  · rcases converts_operand y b hy with h' | h'
    · rw [h, h']
      exact Or.inl rfl
    · rw [h, h']
      exact Or.inr rfl
  · rw [h]
    exact Or.inr rfl

/-- An operation on two numbers gives a number, unless an integer is too large. -/
theorem gives_combine (hx : x.Reads a) (hy : y.Reads b)
    (hrules : x.origin.join y.origin = .density) : Gives (x.combine f y) (f a b) := by
  rcases combine_reads (f := f) hx hy hrules with h | h
  · exact Or.inl ⟨_, h, .scalar _⟩
  · exact Or.inr h

/-- An operation on numbers gives the number that the operation on scalars gives. -/
theorem gives_arithmetic (hf : Extends onInts f) (hx : x.Reads a) (hy : y.Reads b)
    (hexact : IsExact (arithmetic onInts f x y) (Option.map₂ onInts x.integer? y.integer?)) :
    Gives (arithmetic onInts f x y) (f a b) := by
  -- The kinds of both operands decide where the numbers meet: as integers, as reals, as words, or
  -- entry by entry.
  cases hx with
  | int m =>
    cases hy with
    | int n =>
      refine Or.inl ⟨_, rfl, ?_⟩
      rw [← hf]
      exact .int _
    | real b =>
      change Gives (do
        let a ← (ofInt m : Except EvalError α)
        return .real (f a b)) _
      rcases ofInt_cases (α := α) m with h | h <;> rw [h]
      · exact Or.inl ⟨_, rfl, .real _⟩
      · exact Or.inr rfl
    | word w => exact gives_besideWord hf hexact
    | scalar b => exact gives_combine (.int m) (.scalar b) rfl
  | real a =>
    cases hy with
    | int n =>
      change Gives (do
        let b ← (ofInt n : Except EvalError α)
        return .real (f a b)) _
      rcases ofInt_cases (α := α) n with h | h <;> rw [h]
      · exact Or.inl ⟨_, rfl, .real _⟩
      · exact Or.inr rfl
    | real b => exact Or.inl ⟨_, rfl, .real _⟩
    | word w => exact gives_combine (.real a) (.word w) rfl
    | scalar b => exact gives_combine (.real a) (.scalar b) rfl
  | word u =>
    cases hy with
    | int n => exact gives_besideWord hf hexact
    | real b => exact gives_combine (.word u) (.real b) rfl
    | word w =>
      unfold arithmetic at hexact ⊢
      dsimp only at hexact ⊢
      split at hexact
      · exact gives_word hf (hexact _ _ _ rfl rfl)
      · exact gives_combine (.word u) (.word w) rfl
    | scalar b => exact gives_combine (.word u) (.scalar b) rfl
  | scalar a =>
    cases hy with
    | int n => exact gives_combine (.scalar a) (.int n) rfl
    | real b => exact gives_combine (.scalar a) (.real b) rfl
    | word w => exact gives_combine (.scalar a) (.word w) rfl
    | scalar b => exact gives_combine (.scalar a) (.scalar b) rfl

/-- An operation on a computed number and another value concurs with the same one on what gives the
same number. -/
theorem concur_arithmetic_left (hf : Extends onInts f) (hx : x'.Reads a) (hy : y.IsDense)
    (hexact : IsExact (arithmetic onInts f x' y) (Option.map₂ onInts x'.integer? y.integer?)) :
    Concur Renders (arithmetic onInts f (.scalar a) y) (arithmetic onInts f x' y) := by
  obtain ⟨b, hb⟩ | ⟨t, rfl⟩ | ⟨d, rfl⟩ := hy.cases
  · have hcomputed : arithmetic onInts f (.scalar a) y = combine f (.scalar a) y :=
      arithmetic_of_array_left _ y
    rcases combine_reads (f := f) (.scalar a) hb (density_join _) with h | h
    · rw [hcomputed, h]
      exact (gives_arithmetic hf hx hb hexact).concur
    · rw [hcomputed, h]
      exact .left rfl _
  · rw [arithmetic_of_array_right, arithmetic_of_array_right]
    exact concur_combine (.reads hx) (.same hy) (join_density _) (join_density _)
  · rcases arithmetic_object_right onInts f d (.scalar a) with h | h
    · rw [h]
      exact .left rfl _
    · rw [h]
      exact .left rfl _

/-- Arithmetic with a computed scalar on the right concurs with the same number in another form, as
long as words do not wrap around. -/
theorem concur_arithmetic_right (hf : Extends onInts f) (hx : x.IsDense) (hy : y'.Reads b)
    (hexact : IsExact (arithmetic onInts f x y') (Option.map₂ onInts x.integer? y'.integer?)) :
    Concur Renders (arithmetic onInts f x (.scalar b)) (arithmetic onInts f x y') := by
  obtain ⟨a, ha⟩ | ⟨t, rfl⟩ | ⟨d, rfl⟩ := hx.cases
  · have hcomputed : arithmetic onInts f x (.scalar b) = combine f x (.scalar b) :=
      arithmetic_of_array_right x _
    rcases combine_reads (f := f) ha (.scalar b) (join_density _) with h | h
    · rw [hcomputed, h]
      exact (gives_arithmetic hf ha hy hexact).concur
    · rw [hcomputed, h]
      exact .left rfl _
  · rw [arithmetic_of_array_left, arithmetic_of_array_left]
    exact concur_combine (.same hx) (.reads hy) (density_join _) (density_join _)
  · rw [arithmetic_object_left (.scalar b)]
    exact .left rfl _

/-- Operations on values that stand for the same numbers concur, if they do not wrap around. -/
theorem Renders.arithmetic (hf : Extends onInts f) (hx : Renders x x') (hy : Renders y y')
    (hexact : IsExact (arithmetic onInts f x' y') (Option.map₂ onInts x'.integer? y'.integer?)) :
    Concur Renders (arithmetic onInts f x y) (arithmetic onInts f x' y') := by
  cases hx with
  | same hx =>
    cases hy with
    | same hy => exact .of_eq rfl fun v hv => .same (isDense_arithmetic hv hx hy)
    | reads hy => exact concur_arithmetic_right hf hx hy hexact
  | reads hx =>
    cases hy with
    | same hy => exact concur_arithmetic_left hf hx hy hexact
    | reads hy =>
      have hcomputed (a b : α) : Value.arithmetic onInts f (.scalar a) (.scalar b) =
          .ok (.scalar (f a b)) := by
        change Except.ok (Value.scalar (Rules.density.binary f a b)) = _
        rw [ExactScalar.binary_eq]
      rw [hcomputed]
      exact (gives_arithmetic hf hx hy hexact).concur

end Arithmetic

/-! ## Operators -/

section Operators

variable {v w x x' y y' : Value α} {a b : α}

/-- Values of which at most one is an object are added as numbers are. -/
theorem add_of_reads (h : (∃ a, x.Reads a) ∨ ∃ b, y.Reads b) :
    x.add y = arithmetic (· + ·) (· + ·) x y := by
  rcases h with ⟨a, h⟩ | ⟨b, h⟩
  · cases h <;> cases y <;> rfl
  · cases h <;> cases x <;> rfl

/-- Unless one side is a raw object, a product is arithmetic. -/
theorem mul_of_not_object (hx : ∀ d, x ≠ .object d) (hy : ∀ d, y ≠ .object d) :
    x.mul y = arithmetic (· * ·) (· * ·) x y := by
  unfold Value.mul
  split
  · exact absurd rfl (hx _)
  · exact absurd rfl (hy _)
  · rfl

/-- A number is no raw object. -/
theorem Reads.ne_object (h : x.Reads a) (d : Datum) : x ≠ .object d := by
  cases h <;> nofun

/-- A computed number repeats no text or list. -/
theorem mul_object_scalar (d : Datum) (a : α) :
    (Value.object d).mul (.scalar a) = .error .wrongKind := by
  change arithmetic (· * ·) (· * ·) (.object d) (.scalar a) = _
  exact arithmetic_object_left (.scalar a)

/-- A text or a list is not repeated by a computed scalar. -/
theorem mul_scalar_object (d : Datum) (a : α) :
    (Value.scalar a).mul (.object d) = .error .wrongKind := by
  change combine (· * ·) (.scalar a) (.object d) = _
  unfold combine
  simp only [show (scalar a).origin = .density from rfl, density_join, operand_of_object]
  rfl

/-- A negated number is the negative of the number. -/
theorem Reads.negate_eq (h : v.Reads a) : v.negate = .ok v.neg := by
  cases h <;> rfl

/-- A negated dense value is dense. -/
theorem isDense_neg (h : v.IsDense) : v.neg.IsDense := by
  match v with
  | .number (.int _) | .number (.real _) => exact isDense_number _
  | .object _ => exact isDense_object _
  | .word _ _ | .array _ _ => exact fun _ => h rfl

/-- Quotients convert their operands to reals. -/
theorem Renders.divide (hx : Renders x x') (hy : Renders y y') :
    Concur Renders (x.divide .density y) (x'.divide .density y') :=
  .bind_eq hx.operand fun _ => .bind_eq hy.operand fun _ => .bind_eq (.refl _) fun _ =>
    .ok (.same (isDense_array _))

/-- The base of a power is converted to a real. -/
theorem Renders.base (h : Renders v w) : Concur (· = ·) (v.base .density) (w.base .density) := by
  cases h with
  | same _ => exact .refl _
  | reads hr =>
    have htensor (z : Value α) {c : α} (hz : z.Reads c) :
        z.base .density = z.toTensor := by
      cases hz <;> rfl
    rw [htensor _ (.scalar _), htensor _ hr]
    exact (Renders.reads hr).toTensor

/-- Blocks are made of the reals that their entries are converted to. -/
theorem concur_block {vs ws : List (Value α)} (h : List.Forall₂ Renders vs ws)
    (shape : List Nat) : Concur Renders (block .density vs shape) (block .density ws shape) := by
  have htensors : Concur (· = ·) (vs.mapM Value.toTensor) (ws.mapM Value.toTensor) :=
    (Concur.mapM (h.imp fun _ _ h => h.toTensor)).mono fun _ _ h => List.forall₂_eq_eq_eq ▸ h
  refine .bind_eq htensors fun ts => .of_eq rfl fun v hv => ?_
  split at hv
  · cases hv
  · split at hv <;> cases hv
    exact .same (isDense_array _)

/-- Functions of a real convert their argument. -/
theorem Renders.lift (h : Renders v w) (g : α → α) :
    Concur Renders (v.lift .density g) (w.lift .density g) :=
  .bind_eq h.argument fun _ => .ok (.same (isDense_array _))

variable [ExactIntegers α]

/-- Addition of integers is that of scalars. -/
theorem extends_add : Extends (· + ·) ((· + ·) : α → α → α) := ExactIntegers.ofInt_add

/-- Subtraction of integers is that of scalars. -/
theorem extends_sub : Extends (· - ·) ((· - ·) : α → α → α) := ExactIntegers.ofInt_sub

/-- Multiplication of integers is that of scalars. -/
theorem extends_mul : Extends (· * ·) ((· * ·) : α → α → α) := ExactIntegers.ofInt_mul

/-- Sums of values in another form concur, as long as words do not wrap around. -/
theorem Renders.add (hx : Renders x x') (hy : Renders y y')
    (hexact : IsExact (x'.add y') (Option.map₂ (· + ·) x'.integer? y'.integer?)) :
    Concur Renders (x.add y) (x'.add y') := by
  have harithmetic (h : (∃ a, x.Reads a) ∨ ∃ b, y.Reads b)
      (h' : (∃ a, x'.Reads a) ∨ ∃ b, y'.Reads b) :
      Concur Renders (x.add y) (x'.add y') := by
    rw [add_of_reads h'] at hexact ⊢
    rw [add_of_reads h]
    exact hx.arithmetic extends_add hy hexact
  cases hx with
  | same hx =>
    cases hy with
    | same hy =>
      refine .of_eq rfl fun v hv => .same ?_
      unfold Value.add at hv
      split at hv
      · split at hv <;> cases hv
        exact isDense_object _
      · exact isDense_arithmetic hv hx hy
    | reads hy => exact harithmetic (Or.inr ⟨_, .scalar _⟩) (Or.inr ⟨_, hy⟩)
  | reads hx => exact harithmetic (Or.inl ⟨_, .scalar _⟩) (Or.inl ⟨_, hx⟩)

/-- Differences of values in another form concur, as long as words do not wrap around. -/
theorem Renders.sub (hx : Renders x x') (hy : Renders y y')
    (hexact : IsExact (x'.sub y') (Option.map₂ (· - ·) x'.integer? y'.integer?)) :
    Concur Renders (x.sub y) (x'.sub y') :=
  hx.arithmetic extends_sub hy hexact

/-- Products of values in another form concur, as long as words do not wrap around. -/
theorem Renders.mul (hx : Renders x x') (hy : Renders y y')
    (hexact : IsExact (x'.mul y') (Option.map₂ (· * ·) x'.integer? y'.integer?)) :
    Concur Renders (x.mul y) (x'.mul y') := by
  -- Only a text, which is no operand on the other side, can be repeated by a product.
  have harithmetic (h : ∀ d, x ≠ .object d) (h' : ∀ d, y ≠ .object d)
      (hr : ∀ d, x' ≠ .object d) (hr' : ∀ d, y' ≠ .object d) :
      Concur Renders (x.mul y) (x'.mul y') := by
    rw [mul_of_not_object hr hr'] at hexact ⊢
    rw [mul_of_not_object h h']
    exact hx.arithmetic extends_mul hy hexact
  cases hx with
  | same hx =>
    cases hy with
    | same hy =>
      refine .of_eq rfl fun v hv => .same ?_
      unfold Value.mul repeated at hv
      split at hv
      · repeat' split at hv
        all_goals cases hv
        exact isDense_object _
      · repeat' split at hv
        all_goals cases hv
        exact isDense_object _
      · exact isDense_arithmetic hv hx hy
    | reads hy =>
      by_cases hobject : ∃ d, x = .object d
      · obtain ⟨d, rfl⟩ := hobject
        rw [mul_object_scalar]
        exact .left rfl _
      · push Not at hobject
        exact harithmetic hobject (Reads.scalar _).ne_object hobject hy.ne_object
  | reads hx =>
    cases hy with
    | same hy =>
      by_cases hobject : ∃ d, y = .object d
      · obtain ⟨d, rfl⟩ := hobject
        rw [mul_scalar_object]
        exact .left rfl _
      · push Not at hobject
        exact harithmetic (Reads.scalar _).ne_object hobject hx.ne_object hobject
    | reads hy =>
      exact harithmetic (Reads.scalar _).ne_object (Reads.scalar _).ne_object hx.ne_object
        hy.ne_object

/-- The opposite of a number, if it does not wrap around. -/
theorem Reads.neg (h : v.Reads a)
    (hexact : IsExact (.ok v.neg) (v.integer?.map fun n => -n)) : v.neg.Reads (-a) := by
  cases h with
  | int n =>
    rw [← ExactIntegers.ofInt_neg]
    exact .int _
  | real a => exact .real _
  | word w =>
    have hneg : (w.like (-w.toInt)).toInt = -w.toInt := hexact _ _ _ rfl rfl
    rw [← ExactIntegers.ofInt_neg, ← hneg]
    exact .word _
  | scalar a => exact .scalar _

/-- Negations of values in another form concur, as long as words do not wrap around. -/
theorem Renders.negate (h : Renders v w)
    (hexact : IsExact w.negate (w.integer?.map fun n => -n)) :
    Concur Renders v.negate w.negate := by
  cases h with
  | same h =>
    refine .of_eq rfl fun u hu => .same ?_
    unfold Value.negate at hu
    split at hu <;> cases hu
    exact isDense_neg h
  | reads h =>
    rw [h.negate_eq] at hexact ⊢
    exact .ok (.reads (h.neg hexact))

/-- A power with a computed exponent. -/
theorem power_of_scalar (x : Value α) (b : α) :
    x.power .density (.scalar b) =
      (x.base .density).map fun t => array .density (t.map fun a => Scalar.pow a b) := by
  have hpower : x.power .density (.scalar b) = (do
      let t ← x.base .density
      return array .density (← zip .density (Rules.density.binary Scalar.pow) t (.scalar b))) := rfl
  rw [hpower, ExactScalar.binary_eq]
  unfold zip
  simp only [Tensor.zipWith?_scalar_right]
  cases x.base .density <;> rfl

/-- An integral exponent is not told from the same real. -/
theorem power_of_reads (x : Value α) (hy : y.Reads b) :
    x.power .density y = x.power .density (.scalar b) := by
  have hintegral (n : Int) : (do
      let t ← x.base .density
      return array .density (t.map fun a => Scalar.integralPower a n)) =
      x.power .density (.scalar (Scalar.ofInt n)) := by
    rw [power_of_scalar]
    simp only [ExactIntegers.pow_ofInt]
    cases x.base .density <;> rfl
  cases hy with
  | int n => exact hintegral n
  | word w => exact hintegral w.toInt
  | real b | scalar b => rfl

/-- Powers of values in another form concur. -/
theorem Renders.power (hx : Renders x x') (hy : Renders y y') :
    Concur Renders (x.power .density y) (x'.power .density y') := by
  have hreads {z z' : Value α} {c : α} (hz : z.Reads c) (hz' : z'.Reads c) :
      Concur Renders (x.power .density z) (x'.power .density z') := by
    rw [power_of_reads x hz, power_of_reads x' hz', power_of_scalar, power_of_scalar]
    exact hx.base.map fun _ _ h => h ▸ .same (isDense_array _)
  have hoperand (z : Value α) (hz : z.integer? = none) :
      Concur Renders (x.power .density z) (x'.power .density z) := by
    unfold Value.power
    rw [hz]
    exact .bind_eq hx.base fun _ => .bind_eq (.refl _) fun _ => .bind_eq (.refl _) fun _ =>
      .ok (.same (isDense_array _))
  cases hy with
  | same hy =>
    obtain ⟨b, hb⟩ | ⟨t, rfl⟩ | ⟨d, rfl⟩ := hy.cases
    · exact hreads hb hb
    · exact hoperand _ rfl
    · exact hoperand _ rfl
  | reads hy => exact hreads (.scalar _) hy

end Operators

/-! ## Comparisons -/

section Comparison

variable {onNumbers : Number α → Number α → Bool}
  {onReals : α → α → Bool} {v x x' y y' : Value α} {a b : α}

/-- Known numbers are related as the scalars that they stand for. -/
def Relates (onNumbers : Number α → Number α → Bool)
    (onReals : α → α → Bool) : Prop :=
  ∀ k l a b, Reads (.number k) a → Reads (.number l) b → onNumbers k l = onReals a b

/-- Results that are the same scalar concur. -/
theorem GivesScalar.concur {β : Type} {s t : Except EvalError (Tensor β)} {c : β}
    (hs : GivesScalar s c) (ht : GivesScalar t c) : Concur (· = ·) s t := by
  rcases hs with rfl | rfl
  · rcases ht with rfl | rfl
    · exact .ok rfl
    · exact .right rfl _
  · exact .left rfl _

/-- An object beside a number has no order. -/
theorem relate_object (onNumbers : Number α → Number α → Bool)
    (onReals : α → α → Bool) (hx : x.Reads a) (d : Datum) :
    ∃ e e' : EvalError, e.isDomain = false ∧ e'.isDomain = false ∧
      relate onNumbers onReals x (.object d) = .error e ∧
      relate onNumbers onReals (.object d) x = .error e' := by
  have hzip {z : Value α} (hz : z.Reads a) (onReals : α → α → Bool) :
      ∃ e e' : EvalError, e.isDomain = false ∧ e'.isDomain = false ∧
      (do
        let s ← z.operand .density
        let t ← (Value.object d : Value α).operand .density
        zip .density onReals s t) = .error e ∧
      (do
        let s ← (Value.object d : Value α).operand .density
        let t ← z.operand .density
        zip .density onReals s t) = .error e' := by
    rw [operand_of_object]
    rcases converts_operand z a hz with h | h <;> rw [h]
    · exact ⟨_, _, rfl, rfl, rfl, rfl⟩
    · exact ⟨_, _, rfl, rfl, rfl, rfl⟩
  cases hx with
  | int _ | real _ => exact ⟨_, _, rfl, rfl, rfl, rfl⟩
  | word w => exact hzip (.word w) _
  | scalar a => exact hzip (.scalar a) _

/-- A dense value never equals a raw object that is no number. -/
theorem equalsObject_of_isDense (d : Datum) (hx : x.IsDense) :
    equalsObject d x = .ok (.scalar false) := by
  obtain ⟨a, ha⟩ | ⟨t, rfl⟩ | ⟨d, rfl⟩ := hx.cases
  · cases ha <;> rfl
  · rfl
  · rfl

/-- Unless one side is a raw object, equality is a comparison of numbers. -/
theorem equals_of_not_object (hx : ∀ d, x ≠ .object d) (hy : ∀ d, y ≠ .object d) :
    x.equals .density y = (relate numbersEq Scalar.eq x y).map (indicators .density) := by
  unfold equals
  split
  · exact absurd rfl (hx _)
  · exact absurd rfl (hx _)
  · exact absurd rfl (hy _)
  · cases relate numbersEq Scalar.eq x y <;> rfl

/-- An object never equals a number. -/
theorem equals_object_left (d : Datum) (hy : y.Reads b) :
    (Value.object d).equals .density y = .ok (indicators .density (.scalar false)) := by
  have hobject : (Value.object d).equals .density y =
      (do return indicators .density (← equalsObject d y)) := by
    cases hy <;> rfl
  rw [hobject, equalsObject_of_isDense d hy.isDense]
  rfl

/-- A number never equals a raw object that is no number. -/
theorem equals_object_right (hx : x.Reads a) (d : Datum) :
    x.equals .density (.object d) = .ok (indicators .density (.scalar false)) := by
  have hobject : x.equals .density (.object d) =
      (do return indicators .density (← equalsObject d x)) := by
    cases hx <;> rfl
  rw [hobject, equalsObject_of_isDense d hx.isDense]
  rfl

/-- The result of an equality is dense. -/
theorem isDense_equals (h : x.equals .density y = .ok v) : v.IsDense := by
  unfold equals at h
  split at h
  · cases h
    exact isDense_array _
  all_goals
    obtain ⟨_, -, ht⟩ := bind_eq_ok.mp h
    cases ht
    exact isDense_array _

variable [ExactIntegers α]

/-- Known numbers are ordered as the scalars that they stand for. -/
theorem numbersLe_of_reads {k l : Number α} (hk : Reads (.number k) a)
    (hl : Reads (.number l) b) : numbersLe k l = Scalar.le a b := by
  cases hk with
  | int m =>
    cases hl with
    | int n => exact (ExactIntegers.le_ofInt m n).symm
    | real b => exact ExactIntegers.numbersLe_int_real m b
  | real a =>
    cases hl with
    | int n => exact ExactIntegers.numbersLe_real_int a n
    | real b => rfl

/-- The order of known numbers is related to that of scalars. -/
theorem relates_atLeast :
    Relates (fun k l => numbersLe l k) (fun a b : α => Scalar.le b a) :=
  fun _ _ _ _ hk hl => numbersLe_of_reads hl hk

/-- The equality of known numbers is related to that of scalars. -/
theorem relates_equals : Relates numbersEq (Scalar.eq : α → α → Bool) := by
  intro k l a b hk hl
  rw [numbersEq, numbersLe_of_reads hk hl, numbersLe_of_reads hl hk, ExactIntegers.eq_eq_le]

/-- Scalars are related as they are. -/
theorem onReals_settle (onReals : α → α → Bool) :
    (fun p q => onReals (Rules.density.settle p) (Rules.density.settle q)) = onReals := by
  funext p q
  simp only [ExactScalar.settle_eq]

/-- Beside an array on the left, a comparison is one of operands, entry by entry. -/
theorem relate_of_array_left (s : Tensor α) (y : Value α) :
    relate onNumbers onReals (.array .density s) y = (do
      let t ← y.operand .density
      zip .density onReals s t) := by
  conv_rhs => rw [← onReals_settle onReals]
  cases y with
  | number k => cases k <;> rfl
  | word r w => cases r <;> rfl
  | array r t => cases r <;> rfl
  | object d => rfl

/-- Beside an array on the right, a comparison is one of operands, entry by entry. -/
theorem relate_of_array_right (s : Tensor α) (x : Value α) :
    relate onNumbers onReals x (.array .density s) = (do
      let t ← x.operand .density
      zip .density onReals t s) := by
  conv_rhs => rw [← onReals_settle onReals]
  cases x with
  | number k => cases k <;> rfl
  | word r w => cases r <;> rfl
  | array r t => cases r <;> rfl
  | object d => rfl

/-- Two numbers are related as scalars. -/
theorem relate_of_reads (hrel : Relates onNumbers onReals) (hx : x.Reads a) (hy : y.Reads b) :
    GivesScalar (relate onNumbers onReals x y) (onReals a b) := by
  have hnumbers {k l : Number α} {c d : α} (hk : Reads (.number k) c)
      (hl : Reads (.number l) d) :
      GivesScalar (.ok (.scalar (onNumbers k l))) (onReals c d) := by
    rw [hrel k l c d hk hl]
    exact Or.inl rfl
  -- an integer has to fit the format of the word beside it
  have hfits (m n k : Int) (w : Word) :
      GivesScalar (if Rules.density = .density ∧ !w.holds k then .error .overflow
        else .ok (.scalar (onNumbers (.int m) (.int n))))
        (onReals (Scalar.ofInt m) (Scalar.ofInt n)) := by
    split
    · exact Or.inr rfl
    · exact hnumbers (.int m) (.int n)
  have hzip {z z' : Value α} (hz : z.Reads a) (hz' : z'.Reads b) :
      GivesScalar (do
        let s ← z.operand .density
        let t ← z'.operand .density
        zip .density (fun p q => onReals (Rules.density.settle p) (Rules.density.settle q)) s t)
        (onReals a b) := by
    rw [onReals_settle]
    rcases converts_operand z a hz with h | h
    · rcases converts_operand z' b hz' with h' | h'
      · rw [h, h']
        exact Or.inl rfl
      · rw [h, h']
        exact Or.inr rfl
    · rw [h]
      exact Or.inr rfl
  cases hx with
  | int m =>
    cases hy with
    | int n => exact hnumbers (.int m) (.int n)
    | real b => exact hnumbers (.int m) (.real b)
    | word w => exact hfits m w.toInt m w
    | scalar b => exact hzip (.int m) (.scalar b)
  | real a =>
    cases hy with
    | int n => exact hnumbers (.real a) (.int n)
    | real b => exact hnumbers (.real a) (.real b)
    | word w => exact hzip (.real a) (.word w)
    | scalar b => exact hzip (.real a) (.scalar b)
  | word u =>
    cases hy with
    | int n => exact hfits u.toInt n n u
    | real b => exact hzip (.word u) (.real b)
    | word w => exact hnumbers (.int u.toInt) (.int w.toInt)
    | scalar b => exact hzip (.word u) (.scalar b)
  | scalar a =>
    cases hy with
    | int n => exact hzip (.scalar a) (.int n)
    | real b => exact hzip (.scalar a) (.real b)
    | word w => exact hzip (.scalar a) (.word w)
    | scalar b => exact hzip (.scalar a) (.scalar b)

/-- Comparisons of values that stand for the same numbers concur. -/
theorem Renders.relate (hrel : Relates onNumbers onReals) (hx : Renders x x')
    (hy : Renders y y') :
    Concur (· = ·) (relate onNumbers onReals x y) (relate onNumbers onReals x' y') := by
  cases hx with
  | same hx =>
    cases hy with
    | same hy => exact .refl _
    | reads hy =>
      obtain ⟨a, ha⟩ | ⟨t, rfl⟩ | ⟨d, rfl⟩ := hx.cases
      · exact (relate_of_reads hrel ha (.scalar _)).concur (relate_of_reads hrel ha hy)
      · rw [relate_of_array_left, relate_of_array_left]
        exact .bind_eq (Renders.reads hy).operand fun _ => .refl _
      · obtain ⟨_, e, -, he, -, h⟩ := relate_object onNumbers onReals (.scalar _) d
        rw [h]
        exact .left he _
  | reads hx =>
    cases hy with
    | same hy =>
      obtain ⟨b, hb⟩ | ⟨t, rfl⟩ | ⟨d, rfl⟩ := hy.cases
      · exact (relate_of_reads hrel (.scalar _) hb).concur (relate_of_reads hrel hx hb)
      · rw [relate_of_array_right, relate_of_array_right]
        exact .bind_eq (Renders.reads hx).operand fun _ => .refl _
      · obtain ⟨e, _, he, -, h, -⟩ := relate_object onNumbers onReals (.scalar _) d
        rw [h]
        exact .left he _
    | reads hy =>
      exact (relate_of_reads hrel (.scalar _) (.scalar _)).concur (relate_of_reads hrel hx hy)

/-- Comparisons of values in another form concur. -/
theorem Renders.atLeast (hx : Renders x x') (hy : Renders y y') :
    Concur Renders (x.atLeast .density y) (x'.atLeast .density y') :=
  (hx.relate relates_atLeast hy).map fun _ _ h => h ▸ .same (isDense_array _)

/-- Equalities of values in another form concur. -/
theorem Renders.equals (hx : Renders x x') (hy : Renders y y') :
    Concur Renders (x.equals .density y) (x'.equals .density y') := by
  have hrelate (h : ∀ d, x ≠ .object d) (h' : ∀ d, y ≠ .object d)
      (hr : ∀ d, x' ≠ .object d) (hr' : ∀ d, y' ≠ .object d) :
      Concur Renders (x.equals .density y) (x'.equals .density y') := by
    rw [equals_of_not_object h h', equals_of_not_object hr hr']
    exact (hx.relate relates_equals hy).map fun _ _ h => h ▸ .same (isDense_array _)
  cases hx with
  | same hx =>
    cases hy with
    | same hy => exact .of_eq rfl fun v hv => .same (isDense_equals hv)
    | reads hy =>
      by_cases hobject : ∃ d, x = .object d
      · obtain ⟨d, rfl⟩ := hobject
        rw [equals_object_left d (.scalar _), equals_object_left d hy]
        exact .ok (.same (isDense_array _))
      · push Not at hobject
        exact hrelate hobject (Reads.scalar _).ne_object hobject hy.ne_object
  | reads hx =>
    cases hy with
    | same hy =>
      by_cases hobject : ∃ d, y = .object d
      · obtain ⟨d, rfl⟩ := hobject
        rw [equals_object_right (.scalar _) d, equals_object_right hx d]
        exact .ok (.same (isDense_array _))
      · push Not at hobject
        exact hrelate (Reads.scalar _).ne_object hobject hx.ne_object hobject
    | reads hy =>
      exact hrelate (Reads.scalar _).ne_object (Reads.scalar _).ne_object hx.ne_object
        hy.ne_object

end Comparison

end Value

end BayesGraph
