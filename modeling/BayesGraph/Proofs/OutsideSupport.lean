import BayesGraph.Proofs.ConcurringFunctions
import BayesGraph.Proofs.Truncation

/-!
# No density outside the support

A family declares its support and its density apart from each other, and a truncated distribution
masks the density by its bounds. Over the extended reals the two agree: below the lower and above
the upper bound of the support of a distribution, the logarithm of the density is the infinity below
all numbers or not a number, whatever the parameters and the truncation bounds are
(`BoundDist.isInvalid_logPdf`). The only error is that of a known integer that is too large to be
computed with.
-/

set_option autoImplicit false

namespace BayesGraph

open Outcome

/-! ## Results that fail for one reason only -/

/-- A result with a property, or an overflow, which has a reason. -/
def Delivers {β : Type} (reason : Prop) (x : Except EvalError β) (P : β → Prop) : Prop :=
  (∃ b, x = .ok b ∧ P b) ∨ (x = .error .overflow ∧ reason)

namespace Delivers

variable {β γ : Type} {reason : Prop} {P : β → Prop} {Q : γ → Prop}

/-- A result with the property is delivered. -/
theorem ok {b : β} (h : P b) : Delivers reason (.ok b) P := Or.inl ⟨b, rfl, h⟩

/-- Steps that deliver, deliver one after the other. -/
theorem bind {x : Except EvalError β} {f : β → Except EvalError γ} (h : Delivers reason x P)
    (hf : ∀ b, P b → Delivers reason (f b) Q) : Delivers reason (x >>= f) Q := by
  obtain ⟨b, rfl, hb⟩ | ⟨rfl, hreason⟩ := h
  · exact hf b hb
  · exact Or.inr ⟨rfl, hreason⟩

end Delivers

namespace Value

variable {v w : Value Extended} {vs : List (Value Extended)} {a b x : Extended}

/-- Some known integer among the values does not fit a word with a sign. -/
def SomeTooLarge (vs : List (Value Extended)) : Prop :=
  ∃ n, Value.int n ∈ vs ∧ Word.fitsSigned n = false

/-- A number is delivered as a scalar, unless it is too large. -/
theorem Reads.toTensor (h : v.Reads a) (hv : v ∈ vs) :
    Delivers (SomeTooLarge vs) v.toTensor (· = .scalar a) := by
  cases h with
  | int n =>
    cases hfits : Word.fitsSigned n with
    | true =>
      have hok : (ofInt n : Except EvalError Extended) = .ok (Scalar.ofInt n) := by
        rw [Word.fitsSigned_iff] at hfits
        exact ofInt_of_small (by omega)
      refine Or.inl ⟨_, ?_, rfl⟩
      change (ofInt n).map Tensor.scalar = _
      rw [hok]
      rfl
    | false =>
      obtain hok | herror := converts_toTensor (α := Extended) _ _ (.int n)
      · exact Or.inl ⟨_, hok, rfl⟩
      · exact Or.inr ⟨herror, n, hv, hfits⟩
  | real _ | word _ | scalar _ => exact .ok rfl

/-- A number is delivered as an operand, unless it is too large. -/
theorem Reads.operand (h : v.Reads a) (hv : v ∈ vs) :
    Delivers (SomeTooLarge vs) (v.operand .density) (· = .scalar a) := by
  cases h with
  | int n =>
    change Delivers _ ((scalarOfInt .density n).map Tensor.scalar) _
    unfold scalarOfInt
    dsimp only
    cases hfits : Word.fitsSigned n with
    | true => exact .ok rfl
    | false => exact Or.inr ⟨rfl, n, hv, hfits⟩
  | real _ | word _ | scalar _ => exact .ok rfl

/-- Numbers are delivered as scalars, unless one of them is too large. -/
theorem delivers_toTensors {ws : List (Value Extended)} {qs : List Extended}
    (h : List.Forall₂ Reads ws qs) (hws : ∀ w ∈ ws, w ∈ vs) :
    Delivers (SomeTooLarge vs) (ws.mapM Value.toTensor) (· = qs.map .scalar) := by
  induction h with
  | nil => exact .ok rfl
  | @cons w q ws qs hw _ ih =>
    obtain ⟨hhead, htail⟩ := List.forall_mem_cons.mp hws
    rw [List.mapM_cons]
    refine (hw.toTensor hhead).bind fun t ht => (ih htail).bind fun ts hts => ?_
    rw [ht, hts]
    exact .ok rfl

end Value

/-! ## The tighter one of two bounds -/

namespace Value

variable {u v w x y : Value Extended} {a b c : Extended} {onInts : Int → Int → Int}
  {onReals : Extended → Extended → Extended}

/-- The tighter one of two bounds that are numbers is one of them. -/
theorem reads_of_tighterBound {isUpper : Bool} (hx : x.Reads a) (hy : y.Reads b)
    (h : tighterBound isUpper (some x) (some y) = .ok (some w)) : w.Reads a ∨ w.Reads b := by
  unfold tighterBound at h
  split at h
  · next hnone => cases hnone
  · next hnone _ => cases hnone
  · next k l hk hl =>
    -- of known numbers, one is chosen by comparison
    cases hk
    cases hl
    have hchoice {p : Prop} [Decidable p]
        (hw : (.ok (some (.number (if p then l else k))) : Except EvalError _) = .ok (some w)) :
        w.Reads a ∨ w.Reads b := by
      obtain rfl := Option.some.inj (Except.ok.inj hw)
      split
      · exact Or.inr hy
      · exact Or.inl hx
    split at h
    · exact hchoice h
    · exact hchoice h
  · next hp hq =>
    cases hp
    cases hq
    split at h
    · obtain ⟨z, hz, hw⟩ := bind_eq_ok.mp h
      cases hw
      have hreads := Builtin.reads_of_choice ExactIntegers.min_ofInt min_choice hx hy hz
      rcases Extended.min_choice a b with hmin | hmin <;> rw [hmin] at hreads
      · exact Or.inl hreads
      · exact Or.inr hreads
    · obtain ⟨z, hz, hw⟩ := bind_eq_ok.mp h
      cases hw
      have hreads := Builtin.reads_of_choice ExactIntegers.max_ofInt max_choice hx hy hz
      rcases Extended.max_choice a b with hmax | hmax <;> rw [hmax] at hreads
      · exact Or.inl hreads
      · exact Or.inr hreads

end Value

/-! ## Numbers beyond the bounds -/

/-- A number is below the lower bound or above the upper bound. -/
def Support.Excludes (s : Support Extended) (x : Extended) : Prop :=
  (∃ b ∈ s.lower, ∃ a, b.Reads a ∧ Scalar.lt x a = true) ∨
    ∃ b ∈ s.upper, ∃ a, b.Reads a ∧ Scalar.lt a x = true

/-- The bounds are numbers. -/
structure Support.OfNumbers (s : Support Extended) : Prop where
  lower : ∀ b ∈ s.lower, ∃ a, b.Reads a
  upper : ∀ b ∈ s.upper, ∃ a, b.Reads a

/-- A number beyond the tighter one of two bounds is beyond one of them. -/
theorem exists_of_tighterBound {isUpper : Bool} {v w : Option (Value Extended)}
    {b : Value Extended} {P : Extended → Prop} (hv : ∀ x ∈ v, ∃ a, x.Reads a)
    (hw : ∀ y ∈ w, ∃ a, y.Reads a) (h : tighterBound isUpper v w = .ok (some b))
    (hb : ∃ a, b.Reads a ∧ P a) :
    (∃ x ∈ v, ∃ a, x.Reads a ∧ P a) ∨ ∃ y ∈ w, ∃ a, y.Reads a ∧ P a := by
  obtain ⟨c, hc, hP⟩ := hb
  match v, w with
  | none, w =>
    obtain rfl := Except.ok.inj h
    exact Or.inr ⟨b, rfl, c, hc, hP⟩
  | some x, none =>
    cases h
    exact Or.inl ⟨b, rfl, c, hc, hP⟩
  | some x, some y =>
    obtain ⟨p, hp⟩ := hv x rfl
    obtain ⟨q, hq⟩ := hw y rfl
    rcases Value.reads_of_tighterBound hp hq h with hb | hb
    · obtain rfl := hc.unique hb
      exact Or.inl ⟨x, rfl, c, hp, hP⟩
    · obtain rfl := hc.unique hb
      exact Or.inr ⟨y, rfl, c, hq, hP⟩

namespace BoundDist

variable {d : BoundDist Extended} {s : Support Extended} {x : Extended}

/-- A number beyond the support is beyond that of the family or beyond the truncation bounds. -/
theorem excludes_cases (hfamily : (d.family.support.meaning d.params).OfNumbers)
    (hbounds : Support.OfNumbers ⟨d.lower, d.upper⟩) (hs : d.support = .ok s)
    (hx : s.Excludes x) :
    (d.family.support.meaning d.params).Excludes x ∨ Support.Excludes ⟨d.lower, d.upper⟩ x := by
  unfold support at hs
  split at hs
  · cases hs
  · simp only [bind_eq_ok, pure_eq_ok] at hs
    obtain ⟨lower, hlower, upper, hupper, rfl⟩ := hs
    rcases hx with ⟨b, rfl, hb⟩ | ⟨b, rfl, hb⟩
    · rcases exists_of_tighterBound hfamily.lower hbounds.lower hlower hb with h | h
      · exact Or.inl (Or.inl h)
      · exact Or.inr (Or.inl h)
    · rcases exists_of_tighterBound hfamily.upper hbounds.upper hupper hb with h | h
      · exact Or.inl (Or.inr h)
      · exact Or.inr (Or.inr h)

end BoundDist

/-! ## The densities of the families -/

namespace Extended

variable {x : Extended}

/-- Outside the condition a restricted number is invalid. -/
theorem isInvalid_restrict {condition : Bool} (h : condition = false) (e : Extended) :
    (Builtin.restrict condition e).IsInvalid := by
  subst h
  exact Or.inl scalar_bottom

/-- An invalid number stays invalid when it is restricted. -/
theorem IsInvalid.restrict (h : x.IsInvalid) (condition : Bool) :
    (Builtin.restrict condition x).IsInvalid := by
  cases condition with
  | true => exact h
  | false => exact isInvalid_restrict rfl x

/-- What is no number is invalid. -/
theorem isInvalid_nan : (Scalar.nan : Extended).IsInvalid := Or.inr scalar_nan

end Extended

/-- For numbers as parameters the bounds of the support are numbers, and beyond them the density is
masked. -/
structure Family.Masks (f : Family Extended) : Prop where
  bounds : ∀ params qs, List.Forall₂ Value.Reads params qs → (f.support.meaning params).OfNumbers
  masked : ∀ params qs, List.Forall₂ Value.Reads params qs →
    ∀ x, (f.support.meaning params).Excludes x → (f.logPdf.meaning x qs).IsInvalid

namespace Builtin

open Extended

variable {x : Extended} {qs : List Extended} {lower upper : Option Int} {f : Family Extended}

/-- A function of one parameter is invalid if it is so for every parameter. -/
theorem isInvalid_of1 {g : Extended → Extended → Extended} (h : ∀ a, (g x a).IsInvalid) :
    (of1 g x qs).IsInvalid := by
  unfold of1
  split
  · exact h _
  · exact isInvalid_nan

/-- A function of two parameters is invalid if it is so for the given ones. -/
theorem isInvalid_of2 {g : Extended → Extended → Extended → Extended}
    (h : ∀ a b, qs = [a, b] → (g x a b).IsInvalid) : (of2 g x qs).IsInvalid := by
  unfold of2
  split
  · exact h _ _ rfl
  · exact isInvalid_nan

/-- Fixed bounds are integers. -/
theorem masks_fixedSupport (hsupport : f.support = fixedSupport lower upper)
    (h : ∀ x qs, (∃ n ∈ lower, Scalar.lt x (num n) = true) ∨
      (∃ n ∈ upper, Scalar.lt (num n) x = true) → (f.logPdf.meaning x qs).IsInvalid) :
    f.Masks := by
  have hreads {b : Value Extended} {k : Option Int}
      (hb : b ∈ k.map fun n => (Value.real (num n) : Value Extended)) :
      ∃ n ∈ k, b.Reads (num n) := by
    obtain ⟨n, hn, rfl⟩ := Option.map_eq_some_iff.mp hb
    exact ⟨n, hn, .real _⟩
  refine ⟨fun params qs _ => ?_, fun params qs _ x hx => h x qs ?_⟩
  · rw [hsupport]
    refine ⟨fun b hb => ?_, fun b hb => ?_⟩
    · obtain ⟨n, -, hn⟩ := hreads hb
      exact ⟨_, hn⟩
    · obtain ⟨n, -, hn⟩ := hreads hb
      exact ⟨_, hn⟩
  · rw [hsupport] at hx
    rcases hx with ⟨b, hb, a, ha, hlt⟩ | ⟨b, hb, a, ha, hlt⟩
    · obtain ⟨n, hn, hread⟩ := hreads hb
      exact Or.inl ⟨n, hn, ha.unique hread ▸ hlt⟩
    · obtain ⟨n, hn, hread⟩ := hreads hb
      exact Or.inr ⟨n, hn, ha.unique hread ▸ hlt⟩

/-- A family on the whole real line has nothing to mask. -/
theorem masks_unbounded (hsupport : f.support = fixedSupport none none) : f.Masks :=
  masks_fixedSupport hsupport fun x qs hx => by
    rcases hx with ⟨_, hn, _⟩ | ⟨_, hn, _⟩
    · cases hn
    · cases hn

/-- A family on the positive numbers masks what is invalid below zero. -/
theorem masks_positive (hsupport : f.support = fixedSupport (some 0) none)
    (h : ∀ x qs, Scalar.lt x (num 0) = true → (f.logPdf.meaning x qs).IsInvalid) : f.Masks :=
  masks_fixedSupport hsupport fun x qs hx => by
    rcases hx with ⟨_, ⟨⟩, hlt⟩ | ⟨_, hn, _⟩
    · exact h x qs hlt
    · cases hn

/-- A family on the unit interval masks what is invalid below zero and above one. -/
theorem masks_unit (hsupport : f.support = fixedSupport (some 0) (some 1))
    (h : ∀ x qs, Scalar.lt x (num 0) = true ∨ Scalar.lt (num 1) x = true →
      (f.logPdf.meaning x qs).IsInvalid) : f.Masks :=
  masks_fixedSupport hsupport fun x qs hx => by
    rcases hx with ⟨_, ⟨⟩, hlt⟩ | ⟨_, ⟨⟩, hlt⟩
    · exact h x qs (Or.inl hlt)
    · exact h x qs (Or.inr hlt)

/-- A parameter as a bound. -/
theorem exists_reads_of_getElem? {params : List (Value Extended)} {v : Value Extended} {k : Nat}
    (h : List.Forall₂ Value.Reads params qs) (hv : v ∈ params[k]?) : ∃ a ∈ qs[k]?, v.Reads a := by
  induction h generalizing k with
  | nil => cases hv
  | @cons w q ws qs hw _ ih =>
    cases k with
    | zero =>
      obtain rfl := Option.some.inj hv
      exact ⟨q, rfl, hw⟩
    | succ k => exact ih hv

/-- A bound that is a parameter is the number that the density is computed from. -/
theorem mem_getElem?_of_reads {params : List (Value Extended)} {v : Value Extended} {k : Nat}
    {a : Extended} (h : List.Forall₂ Value.Reads params qs) (hv : v ∈ params[k]?) (ha : v.Reads a) :
    a ∈ qs[k]? := by
  obtain ⟨b, hb, hread⟩ := exists_reads_of_getElem? h hv
  rwa [ha.unique hread]

/-- All built-in families mask their densities, or are not bounded. -/
theorem masks_families : ∀ f ∈ families (α := Extended), f.Masks := by
  have hparameter (k : Nat) (params : List (Value Extended)) (qs : List Extended)
      (h : List.Forall₂ Value.Reads params qs) (b : Value Extended) (hb : b ∈ params[k]?) :
      ∃ a, b.Reads a := by
    obtain ⟨a, -, ha⟩ := exists_reads_of_getElem? h hb
    exact ⟨a, ha⟩
  have hnegative {x : Extended} (hx : Scalar.lt x (num 0) = true) (e : Extended) :
      (restrict (Scalar.le (num 0) x) e).IsInvalid :=
    isInvalid_restrict (le_eq_false_of_lt hx) e
  have hcount {x : Extended} (hx : Scalar.lt x (num 0) = true) (e : Extended) :
      (restrict (isWhole x && Scalar.le (num 0) x) e).IsInvalid :=
    isInvalid_restrict (by rw [le_eq_false_of_lt hx, Bool.and_false]) e
  -- A family with a fixed support has one case, which is its density outside; the others also have
  -- bounds to read.
  simp only [families, continuousFamilies, discreteFamilies, List.forall_mem_append,
    List.forall_mem_cons, List.not_mem_nil, false_implies, implies_true]
  refine ⟨⟨masks_unbounded rfl, masks_positive rfl fun x qs hx => ?dlnorm, masks_unbounded rfl,
    masks_unbounded rfl, masks_unbounded rfl, masks_positive rfl fun x qs hx => ?dgamma,
    masks_positive rfl fun x qs hx => ?dexp, masks_positive rfl fun x qs hx => ?dchisqr,
    masks_positive rfl fun x qs hx => ?dweib, masks_unit rfl fun x qs hx => ?dbeta, ?dunif, ?dpar,
    trivial⟩, masks_unit rfl fun x qs hx => ?dbern, ?dbin,
    masks_positive rfl fun x qs hx => ?dpois, masks_positive rfl fun x qs hx => ?dnegbin, trivial⟩
  case dlnorm => exact isInvalid_of2 fun _ _ _ => isInvalid_restrict (lt_eq_false_of_lt hx) _
  case dgamma => exact isInvalid_of2 fun _ _ _ => hnegative hx _
  case dexp => exact isInvalid_of1 fun _ => hnegative hx _
  case dchisqr =>
    refine isInvalid_of1 fun k => ?_
    unfold chiSquareLogPdf
    dsimp only
    rw [if_pos hx]
    exact Or.inl scalar_bottom
  case dweib => exact isInvalid_of2 fun _ _ _ => hnegative hx _
  case dbeta =>
    refine isInvalid_of2 fun a b _ => ?_
    unfold betaLogPdf
    split
    · exact isInvalid_nan
    · rw [if_pos (Bool.or_eq_true _ _ ▸ hx)]
      exact Or.inl scalar_bottom
  case dunif =>
    refine ⟨fun params qs h => ⟨hparameter 0 params qs h, hparameter 1 params qs h⟩,
      fun params qs h x hx => isInvalid_of2 ?_⟩
    rintro a b rfl
    refine isInvalid_restrict ?_ _
    rcases hx with ⟨v, hv, c, hc, hlt⟩ | ⟨v, hv, c, hc, hlt⟩
    · obtain rfl := Option.some.inj (mem_getElem?_of_reads h hv hc)
      rw [le_eq_false_of_lt hlt, Bool.false_and]
    · obtain rfl := Option.some.inj (mem_getElem?_of_reads h hv hc)
      rw [le_eq_false_of_lt hlt, Bool.and_false]
  case dpar =>
    refine ⟨fun params qs h => ⟨hparameter 1 params qs h, fun b hb => ?_⟩,
      fun params qs h x hx => isInvalid_of2 ?_⟩
    · cases hb
    · rintro alpha c rfl
      rcases hx with ⟨v, hv, b, hb, hlt⟩ | ⟨v, hv, _⟩
      · obtain rfl := Option.some.inj (mem_getElem?_of_reads h hv hb)
        exact isInvalid_restrict (le_eq_false_of_lt hlt) _
      · cases hv
  case dbern =>
    refine isInvalid_of1 fun p => isInvalid_restrict ?_ _
    have hone : Scalar.lt (num 0 : Extended) (num 1) = true := by simp
    rcases hx with hx | hx
    · rw [eq_eq_false_of_lt hx, eq_eq_false_of_lt (Extended.lt_trans hx hone), Bool.or_false]
    · rw [eq_eq_false_of_gt hx, eq_eq_false_of_gt (Extended.lt_trans hone hx), Bool.or_false]
  case dbin =>
    refine ⟨fun params qs h => ⟨?_, hparameter 1 params qs h⟩,
      fun params qs h x hx => isInvalid_of2 ?_⟩
    · rintro _ ⟨⟩
      exact ⟨_, .real _⟩
    · rintro p n rfl
      refine isInvalid_restrict ?_ _
      rcases hx with ⟨v, ⟨⟩, c, hc, hlt⟩ | ⟨v, hv, c, hc, hlt⟩
      · obtain rfl := hc.unique (.real _)
        rw [le_eq_false_of_lt hlt, Bool.and_false, Bool.false_and]
      · obtain rfl := Option.some.inj (mem_getElem?_of_reads h hv hc)
        rw [le_eq_false_of_lt hlt, Bool.and_false]
  case dpois => exact isInvalid_of1 fun _ => hcount hx _
  case dnegbin => exact isInvalid_of2 fun _ _ _ => hcount hx _

end Builtin

/-! ## The density of a distribution -/

namespace BoundDist

open Extended

variable {d : BoundDist Extended} {qs : List Extended} {vs : List (Value Extended)}
  {b v : Value Extended} {x a : Extended}

/-- The parameters and the truncation bounds. -/
def values (d : BoundDist Extended) : List (Value Extended) :=
  d.params ++ (d.lower.toList ++ d.upper.toList)

/-- A distribution of a built-in family with numbers as parameters and as truncation bounds, which
it has only if the family can be truncated. -/
structure OfNumbers (d : BoundDist Extended) : Prop where
  family : ∃ name, (Registry.builtin : Registry Extended).families.get? name = some d.family
  params : ∃ qs, List.Forall₂ Value.Reads d.params qs
  length : d.params.length = d.family.params.length
  bounds : Support.OfNumbers ⟨d.lower, d.upper⟩
  truncatable : d.truncated = true → d.family.truncatable = true

/-- The family of such a distribution masks what is outside of its support. -/
theorem OfNumbers.masks (hd : d.OfNumbers) : d.family.Masks := by
  obtain ⟨name, hname⟩ := hd.family
  obtain ⟨f, hf, heq⟩ := Table.exists_of_get?_ofList_map hname
  exact heq ▸ Builtin.masks_families f hf

/-- The family of such a distribution is sound. -/
theorem OfNumbers.sound (hd : d.OfNumbers) : d.family.Sound := by
  obtain ⟨name, hname⟩ := hd.family
  exact Registry.sound_builtin name d.family hname

/-- Such a distribution has one number for each parameter of its family. -/
theorem OfNumbers.length_eq (hd : d.OfNumbers) (hparams : List.Forall₂ Value.Reads d.params qs) :
    d.family.params.length = qs.length := by
  rw [← hd.length, hparams.length_eq]

/-- The truncation bounds as numbers. -/
theorem OfNumbers.exists_rel (hd : d.OfNumbers) :
    (∃ l, Option.Rel Value.Reads d.lower l) ∧ ∃ u, Option.Rel Value.Reads d.upper u := by
  have hrel {k : Option (Value Extended)} (h : ∀ b ∈ k, ∃ a, b.Reads a) :
      ∃ l, Option.Rel Value.Reads k l := by
    cases k with
    | none => exact ⟨none, .none⟩
    | some b =>
      obtain ⟨a, ha⟩ := h b rfl
      exact ⟨some a, .some ha⟩
  exact ⟨hrel hd.bounds.lower, hrel hd.bounds.upper⟩

/-- The distribution function is computed at a bound, unless a number is too large. -/
theorem delivers_logCdfAt (hd : d.OfNumbers) (hparams : List.Forall₂ Value.Reads d.params qs)
    (htruncated : d.truncated = true) (hb : b.Reads a) (hmem : b ∈ vs) :
    Delivers (Value.SomeTooLarge vs) (d.logCdfAt b (qs.map .scalar))
      fun t => ∃ e, t = .scalar e := by
  obtain ⟨c, hc⟩ := Option.isSome_iff_exists.mp (hd.truncatable htruncated)
  have haccepts := hd.sound.logCdf c hc
  rw [hd.length_eq hparams] at haccepts
  unfold logCdfAt
  rw [hc]
  refine (hb.toTensor hmem).bind fun t ht => ?_
  rw [ht, applyPoint_scalar haccepts]
  exact .ok ⟨_, rfl⟩

/-- The normalizer of a truncated distribution is a scalar. -/
theorem delivers_logNormalizer (hd : d.OfNumbers) (hvalues : ∀ w ∈ d.values, w ∈ vs)
    (htruncated : d.truncated = true) :
    Delivers (Value.SomeTooLarge vs) d.logNormalizer fun w => ∃ z, w = .scalar z := by
  obtain ⟨qs, hparams⟩ := hd.params
  have hcdf {w : Value Extended} (hw : w ∈ d.lower ∨ w ∈ d.upper) :
      Delivers (Value.SomeTooLarge vs) (d.logCdfAt w (qs.map .scalar))
        fun t => ∃ e, t = .scalar e := by
    have hmem : w ∈ d.values := by
      simp only [values, List.mem_append, Option.mem_toList]
      exact Or.inr hw
    obtain ⟨a, ha⟩ : ∃ a, w.Reads a := by
      rcases hw with hw | hw
      · exact hd.bounds.lower w hw
      · exact hd.bounds.upper w hw
    exact delivers_logCdfAt hd hparams htruncated ha (hvalues w hmem)
  unfold logNormalizer
  refine (Value.delivers_toTensors hparams fun w hw => hvalues w (List.mem_append_left _ hw)).bind
    fun ts hts => ?_
  rw [hts]
  cases hlower : d.lower with
  | none =>
    cases hupper : d.upper with
    | none =>
      rw [truncated, hlower, hupper] at htruncated
      cases htruncated
    | some u =>
      refine (hcdf (Or.inr hupper)).bind fun t ht => ?_
      obtain ⟨e, rfl⟩ := ht
      exact .ok ⟨_, rfl⟩
  | some l =>
    cases hupper : d.upper with
    | none =>
      refine (hcdf (Or.inl hlower)).bind fun t ht => ?_
      obtain ⟨e, rfl⟩ := ht
      exact .ok ⟨_, rfl⟩
    | some u =>
      refine (hcdf (Or.inr hupper)).bind fun above habove =>
        (hcdf (Or.inl hlower)).bind fun below hbelow => ?_
      obtain ⟨_, rfl⟩ := habove
      obtain ⟨_, rfl⟩ := hbelow
      exact .ok ⟨_, rfl⟩

/-- Whether a scalar lies on the right side of a bound. -/
theorem delivers_insideBound (inside : Extended → Extended → Bool) {k : Option (Value Extended)}
    {l : Option Extended} (h : Option.Rel Value.Reads k l) (hmem : ∀ b ∈ k, b ∈ vs) :
    Delivers (Value.SomeTooLarge vs) (insideBound (.scalar x) k inside)
      (· = (l.map (inside x)).map .scalar) := by
  cases h with
  | none => exact .ok rfl
  | @some b a hb =>
    refine (hb.operand (hmem b rfl)).bind fun t ht => ?_
    rw [ht]
    exact .ok rfl

/-- The tests of both bounds come to one test. -/
theorem insideBoth_scalar {p q : Option Bool} (h : p.isSome = true ∨ q.isSome = true) :
    insideBoth (p.map .scalar) (q.map .scalar) =
      .ok (some (.scalar (p.getD true && q.getD true))) := by
  match p, q with
  | none, none => simp at h
  | none, some b => rfl
  | some a, none => simp [insideBoth]
  | some a, some b => rfl

/-- A bound as the number that it is. -/
theorem eq_some_of_rel {k : Option (Value Extended)} {l : Option Extended}
    (h : Option.Rel Value.Reads k l) (hb : b ∈ k) (ha : b.Reads a) : l = some a := by
  cases h with
  | none => cases hb
  | some hc =>
    cases hb
    rw [ha.unique hc]

/-- A truncated distribution has a bound to test. -/
theorem isSome_of_truncated {l u : Option Extended} (h : d.truncated = true)
    (hl : Option.Rel Value.Reads d.lower l) (hu : Option.Rel Value.Reads d.upper u) :
    (l.map fun a => Scalar.le a x).isSome = true ∨
      (u.map fun a => Scalar.le x a).isSome = true := by
  rw [Option.isSome_map, Option.isSome_map]
  rcases Bool.or_eq_true_iff.mp h with h | h
  · obtain ⟨b, hb⟩ := Option.isSome_iff_exists.mp h
    rw [hb] at hl
    cases hl
    exact Or.inl rfl
  · obtain ⟨b, hb⟩ := Option.isSome_iff_exists.mp h
    rw [hb] at hu
    cases hu
    exact Or.inr rfl

/-- Beyond the truncation bounds is a number only if there are some. -/
theorem truncated_of_excludes (h : Support.Excludes ⟨d.lower, d.upper⟩ x) :
    d.truncated = true := by
  refine Bool.or_eq_true_iff.mpr ?_
  rcases h with ⟨b, hb, _⟩ | ⟨b, hb, _⟩
  · exact Or.inl (Option.isSome_of_mem hb)
  · exact Or.inr (Option.isSome_of_mem hb)

/-- Beyond the truncation bounds one of the two conditions on a point fails. -/
theorem inside_eq_false_of_excludes {l u : Option Extended} (hl : Option.Rel Value.Reads d.lower l)
    (hu : Option.Rel Value.Reads d.upper u) (h : Support.Excludes ⟨d.lower, d.upper⟩ x) :
    ((l.map fun a => Scalar.le a x).getD true && (u.map fun a => Scalar.le x a).getD true) =
      false := by
  rcases h with ⟨b, hb, a, ha, hlt⟩ | ⟨b, hb, a, ha, hlt⟩
  · rw [eq_some_of_rel hl hb ha, Option.map_some, Option.getD_some, le_eq_false_of_lt hlt,
      Bool.false_and]
  · rw [eq_some_of_rel hu hb ha, Option.map_some, Option.getD_some, le_eq_false_of_lt hlt,
      Bool.and_false]

/-- Beyond the support of a distribution the logarithm of the density is the infinity below all
numbers or not a number, or a known integer is too large to be computed with. -/
theorem isInvalid_logPdf {s : Support Extended} (hd : d.OfNumbers) (hs : d.support = .ok s)
    (hv : v.Reads x) (hx : s.Excludes x) :
    Delivers (Value.SomeTooLarge (v :: d.values)) (d.logPdf v)
      fun p => ∃ e : Extended, p = .scalar e ∧ e.IsInvalid := by
  obtain ⟨qs, hparams⟩ := hd.params
  obtain ⟨⟨l, hl⟩, u, hu⟩ := hd.exists_rel
  have haccepts := hd.sound.logPdf
  rw [hd.length_eq hparams] at haccepts
  have hvalues : ∀ w ∈ d.values, w ∈ v :: d.values := fun w => List.mem_cons_of_mem v
  have hbound (w : Value Extended) (hw : w ∈ d.lower ∨ w ∈ d.upper) : w ∈ v :: d.values := by
    refine hvalues w ?_
    simp only [values, List.mem_append, Option.mem_toList]
    exact Or.inr hw
  have hcases := excludes_cases (hd.masks.bounds d.params qs hparams) hd.bounds hs hx
  have hfamily := hd.masks.masked d.params qs hparams x
  unfold logPdf
  refine (hv.toTensor List.mem_cons_self).bind fun t ht => ?_
  refine (Value.delivers_toTensors hparams fun w hw =>
    hvalues w (List.mem_append_left _ hw)).bind fun ts hts => ?_
  rw [ht, hts, applyPoint_scalar haccepts, ok_bind]
  generalize d.family.logPdf.meaning x qs = density at hfamily ⊢
  split
  · next htruncated =>
    refine (delivers_insideBound _ hl fun b hb => hbound b (Or.inl hb)).bind fun low hlow => ?_
    refine (delivers_insideBound _ hu fun b hb => hbound b (Or.inr hb)).bind fun high hhigh => ?_
    refine (delivers_logNormalizer hd hvalues htruncated).bind fun w hw => ?_
    obtain ⟨z, rfl⟩ := hw
    have hsub : Value.sub (.array .density (.scalar density)) (.scalar z) =
        .ok (.scalar (density - z)) := rfl
    rw [hlow, hhigh, hsub, ok_bind, insideBoth_scalar (isSome_of_truncated htruncated hl hu),
      ok_bind]
    refine .ok ⟨_, rfl, ?_⟩
    rcases hcases with h | h
    · exact ((hfamily h).add_right _).restrict _
    · exact isInvalid_restrict (inside_eq_false_of_excludes hl hu h) _
  · next htruncated =>
    refine .ok ⟨density, rfl, hfamily (hcases.resolve_right fun h => htruncated ?_)⟩
    exact truncated_of_excludes h

/-- The exponential distribution truncated at 2 has no density at 3. -/
theorem isInvalid_exponential_three :
    ∃ f, (Registry.builtin : Registry Extended).families.get? "dexp" = some f ∧
      OfNumbers ⟨f, [.scalar (.real 1)], none, some (.real (.real 2))⟩ ∧
      ∃ s, support ⟨f, [.scalar (.real 1)], none, some (.real (.real 2))⟩ = .ok s ∧
        s.Excludes (.real 3) ∧
        ∃ e : Extended, logPdf ⟨f, [.scalar (.real 1)], none, some (.real (.real 2))⟩
          (.scalar (.real 3)) = .ok (.scalar e) ∧ e.IsInvalid := by
  obtain ⟨f, hf, htruncatable, hparams, hsupport⟩ : ∃ f,
      (Registry.builtin : Registry Extended).families.get? "dexp" = some f ∧
        f.truncatable = true ∧ f.params = ["lambda"] ∧
        f.support = Builtin.fixedSupport (some 0) none := ⟨_, rfl, rfl, rfl, rfl⟩
  have hd : OfNumbers ⟨f, [.scalar (.real 1)], none, some (.real (.real 2))⟩ := by
    refine ⟨⟨_, hf⟩, ⟨_, .cons (.scalar _) .nil⟩, by rw [hparams]; rfl, ⟨by simp, ?_⟩,
      fun _ => htruncatable⟩
    rintro _ ⟨⟩
    exact ⟨_, .real _⟩
  have hs : support ⟨f, [.scalar (.real 1)], none, some (.real (.real 2))⟩ =
      .ok ⟨some (.real (Builtin.num 0)), some (.real (.real 2))⟩ := by
    unfold support
    rw [hsupport]
    rfl
  have hx : Support.Excludes ⟨some (.real (Builtin.num 0)), some (.real (.real 2))⟩ (.real 3) := by
    refine Or.inr ⟨_, rfl, _, .real _, ?_⟩
    rw [lt_real, decide_eq_true_iff]
    norm_num
  refine ⟨f, hf, hd, _, hs, hx, ?_⟩
  obtain ⟨p, hp, e, rfl, he⟩ | ⟨-, n, hn, -⟩ := isInvalid_logPdf hd hs (.scalar _) hx
  · exact ⟨e, hp, he⟩
  · -- none of the values is a known integer
    simp only [values, Option.toList_none, Option.toList_some, List.nil_append, List.mem_cons,
      List.mem_append, List.not_mem_nil, or_false] at hn
    rcases hn with hn | hn | hn
    · cases hn
    · cases hn
    · cases hn

end BoundDist

end BayesGraph
