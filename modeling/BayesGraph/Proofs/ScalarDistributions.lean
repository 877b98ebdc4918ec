import BayesGraph.Proofs.ArithmeticErrors
import BayesGraph.Proofs.IdentifierTexts
import BayesGraph.Proofs.Table
import BayesGraph.Registry

/-!
# Distributions of scalars

A family is sound if its functions can be called with as many arguments as it has parameters, and
if the bounds of its support have no dimensions when its parameters have none. All built-in families
are sound (`Registry.sound_builtin`), and registration refuses functions that take another number of
arguments (`Registry.sound_of_registerFamily`).

A distribution of a sound family with scalars as parameters and bounds computes its density and its
transform without other errors than those of the arithmetic.
-/

set_option autoImplicit false

namespace BayesGraph

open Outcome

/-- A call with `count` arguments can be made. -/
def Routine.Accepts {μ : Type} (r : Routine μ) (count : Nat) : Prop :=
  ∀ name, r.check name (some count) = .ok ()

/-- The name is part of the messages only. -/
theorem Routine.accepts_of_check {μ : Type} {r : Routine μ} {count : Nat} {name : String}
    (h : r.check name (some count) = .ok ()) : r.Accepts count := by
  intro other
  unfold check at h ⊢
  cases hform : r.form with
  | function =>
    rw [hform] at h
    dsimp only at h ⊢
    cases hsignature : r.signature with
    | none => rfl
    | some s =>
      rw [hsignature] at h
      dsimp only at h ⊢
      split at h
      · next haccepts => rw [if_pos haccepts]
      · cases h
  | notCallable | typeObject | suspending =>
    rw [hform] at h
    cases h

variable {α : Type}

/-- The bounds that there are have no dimensions. -/
structure Support.OfScalars (s : Support α) : Prop where
  lower : ∀ b ∈ s.lower, b.IsArray []
  upper : ∀ b ∈ s.upper, b.IsArray []

/-- The function takes as many parameters, and for parameters without dimensions it gives bounds
without dimensions. -/
structure Routine.IsSupport (s : Routine (List (Value α) → Support α)) (count : Nat) : Prop where
  accepts : s.Accepts count
  bounds : ∀ ps, ps.length = count → (∀ p ∈ ps, p.IsArray []) → (s.meaning ps).OfScalars

/-- The functions of a family take its parameters, and its support is one of scalars. -/
structure Family.Sound (f : Family α) : Prop where
  logPdf : f.logPdf.Accepts (f.params.length + 1)
  support : f.support.IsSupport f.params.length
  logCdf : ∀ c ∈ f.logCdf, c.Accepts (f.params.length + 1)

/-- All families of a registry are sound. -/
def Registry.Sound (r : Registry α) : Prop := ∀ name f, r.families.get? name = some f → f.Sound

/-! ## Built-in and registered families -/

/-- Parameters that have to be given accept one argument each. -/
theorem Signature.accepts_required (names : List String) :
    accepts (names.map Parameter.required) names.length = true := by
  have hkeyword : (names.map Parameter.required).any Parameter.isKeyword = false := by
    simp [Parameter.isKeyword]
  have hrequired : (names.map Parameter.required).countP Parameter.isRequired = names.length := by
    simp [Parameter.isRequired, Function.comp_def]
  have hpositional :
      (names.map Parameter.required).countP Parameter.isPositional = names.length := by
    simp [Parameter.isPositional, Function.comp_def]
  simp [accepts, hkeyword, hrequired, hpositional]

namespace Builtin

/-- A point function accepts a point and as many parameters as it has. -/
theorem accepts_pointRoutine (params : List String) (f : PointFunction α) :
    (pointRoutine params f).Accepts (params.length + 1) := by
  intro name
  exact if_pos (Signature.accepts_required ("x" :: params))

/-- A support that depends on the parameters has scalar bounds if they are scalars. -/
theorem isSupport_dependentSupport (params : List String) {f : List (Value α) → Support α}
    (hbounds : ∀ ps : List (Value α), (∀ p ∈ ps, p.IsArray []) → (f ps).OfScalars) :
    (dependentSupport params f).IsSupport params.length where
  accepts _ := if_pos (Signature.accepts_required params)
  bounds ps _ := hbounds ps

/-- A parameter as a bound. -/
theorem isArray_of_getElem? {ps : List (Value α)} (h : ∀ p ∈ ps, p.IsArray []) (k : Nat) :
    ∀ b ∈ ps[k]?, b.IsArray [] := fun b hb => h b (List.mem_of_getElem? hb)

/-- A family is sound if its support is. -/
theorem sound_family {name : String} {params : List String} {logPdf : PointFunction α}
    {support : Routine (List (Value α) → Support α)} {kind : SupportKind}
    {logCdf : Option (PointFunction α)} (h : support.IsSupport params.length) :
    (family name params logPdf support kind logCdf).Sound where
  logPdf := accepts_pointRoutine params logPdf
  support := h
  logCdf c hc := by
    obtain ⟨f, -, rfl⟩ := Option.map_eq_some_iff.mp hc
    exact accepts_pointRoutine params f

/-- A discrete family is sound if its support is. -/
theorem sound_discreteFamily {name : String} {params : List String} {logPdf : PointFunction α}
    {support : Routine (List (Value α) → Support α)} (h : support.IsSupport params.length) :
    (discreteFamily name params logPdf support).Sound where
  logPdf := accepts_pointRoutine params logPdf
  support := h
  logCdf c hc := by cases hc

variable [Scalar α]

/-- A fixed support has scalar bounds. -/
theorem isSupport_fixedSupport (lower upper : Option Int) (count : Nat) :
    (fixedSupport lower upper : Routine (List (Value α) → Support α)).IsSupport count where
  accepts name := by
    simp [fixedSupport, Routine.check, Signature.accepts, Parameter.isKeyword,
      Parameter.isVariadic, Parameter.isRequired]
  bounds ps _ _ := by
    constructor
    · intro b hb
      obtain ⟨n, -, rfl⟩ := Option.map_eq_some_iff.mp hb
      exact Value.isArray_number _
    · intro b hb
      obtain ⟨n, -, rfl⟩ := Option.map_eq_some_iff.mp hb
      exact Value.isArray_number _

/-- All built-in families are sound: their bounds are fixed, or are parameters. -/
theorem sound_families : ∀ f ∈ families (α := α), f.Sound := by
  have hnone : ∀ b ∈ (none : Option (Value α)), b.IsArray [] := by simp
  have hzero : ∀ b ∈ some (Value.real (num 0) : Value α), b.IsArray [] := by
    rintro _ ⟨⟩
    exact Value.isArray_number _
  have hfixed := @isSupport_fixedSupport α _
  have hunif := isSupport_dependentSupport ["a", "b"] fun (ps : List (Value α)) h =>
    (⟨isArray_of_getElem? h 0, isArray_of_getElem? h 1⟩ : Support.OfScalars ⟨ps[0]?, ps[1]?⟩)
  have hpar := isSupport_dependentSupport ["alpha", "c"] fun (ps : List (Value α)) h =>
    (⟨isArray_of_getElem? h 1, hnone⟩ : Support.OfScalars ⟨ps[1]?, none⟩)
  have hbin := isSupport_dependentSupport ["p", "n"] fun (ps : List (Value α)) h =>
    (⟨hzero, isArray_of_getElem? h 1⟩ : Support.OfScalars ⟨some (.real (num 0)), ps[1]?⟩)
  intro f hf
  rcases List.mem_append.mp hf with hf | hf
  · -- in the order of the list
    simp only [continuousFamilies, List.mem_cons, List.not_mem_nil, or_false] at hf
    rcases hf with rfl | rfl | rfl | rfl | rfl | rfl | rfl | rfl | rfl | rfl | rfl | rfl
    rotate_right 2
    · exact sound_family hunif
    · exact sound_family hpar
    all_goals exact sound_family (hfixed _ _ _)
  · simp only [discreteFamilies, List.mem_cons, List.not_mem_nil, or_false] at hf
    rcases hf with rfl | rfl | rfl | rfl
    · exact sound_discreteFamily (hfixed _ _ _)
    · exact sound_discreteFamily hbin
    · exact sound_discreteFamily (hfixed _ _ _)
    · exact sound_discreteFamily (hfixed _ _ _)

end Builtin

namespace Registry

/-- The built-in families are sound. -/
theorem sound_builtin [Scalar α] : (builtin : Registry α).Sound := by
  intro name f h
  obtain ⟨_, hmem, rfl⟩ := Table.exists_of_get?_ofList_map h
  exact Builtin.sound_families _ hmem

variable {r r' : Registry α}

/-- A registered family is as sound as the bounds of its support. -/
theorem sound_of_registerFamily {f : Family α} (hr : r.Sound)
    (hbounds : ∀ ps, ps.length = f.params.length → (∀ p ∈ ps, p.IsArray []) →
      (f.support.meaning ps).OfScalars)
    (h : r.registerFamily (.family f) = .ok r') : r'.Sound := by
  obtain ⟨_, s, heq, -, hlogPdf, hsupport, hlogCdf, rfl⟩ := registerFamily_eq_ok h
  cases heq
  intro name f' hf'
  rw [Table.get?_insert] at hf'
  split at hf'
  · rw [Option.some.injEq] at hf'
    subst hf'
    exact ⟨Routine.accepts_of_check hlogPdf, ⟨Routine.accepts_of_check hsupport, hbounds⟩,
      fun c hc => Routine.accepts_of_check (hlogCdf c hc)⟩
  · exact hr name f' hf'

/-- Registering a function leaves the families sound. -/
theorem sound_of_registerFunction {name : Datum} {f : Callable α} {count : Option Nat}
    (hr : r.Sound) (h : r.registerFunction name f count = .ok r') : r'.Sound := by
  obtain ⟨s, -, rfl⟩ := registerFunction_eq_ok h
  exact hr

end Registry

/-! ## Supports and transforms -/

variable [Scalar α] {x y : Value α}

namespace Builtin

/-- A scalar is computed from a scalar. -/
theorem contained_computed (h : x.IsArray []) :
    Contained (computed .density x) (Value.IsArray · []) := by
  rcases x with (n | _) | _ | _ | _
  · unfold computed computedInt
    dsimp only
    split
    · exact Value.isArray_word _ _
    · exact rfl
  · exact ⟨trivial, rfl⟩
  · exact Value.isArray_word _ _
  · exact ⟨trivial, h.shape_eq⟩
  · exact h.numeric.elim

/-- The choice between two scalars is a scalar. -/
theorem contained_pairwise (onInts : Int → Int → Int) (onReals : α → α → α) (hx : x.IsArray [])
    (hy : y.IsArray []) :
    Contained (pairwise .density onInts onReals x y) (Value.IsArray · []) := by
  unfold pairwise
  refine (contained_computed hx).bind fun a ha => ?_
  refine (contained_computed hy).bind fun b hb => ?_
  exact Value.contained_arithmetic onInts onReals ha hb (Tensor.join?_nil [])

/-- A function with a case for integers takes a scalar to a scalar. -/
theorem contained_integral (onInt : Int → Int) (onReal : α → α) (hx : x.IsArray []) :
    Contained (integral .density onInt onReal x) (Value.IsArray · []) := by
  unfold integral
  refine (contained_computed hx).bind fun v hv => ?_
  split
  · exact Value.isArray_number _
  · exact Value.isArray_word _ _
  · exact hv.argument.bind fun t ht => ⟨trivial, ht⟩

end Builtin

/-- The tighter one of two scalar bounds is a scalar. -/
theorem contained_tighterBound (isUpper : Bool) {a b : Option (Value α)}
    (ha : ∀ v ∈ a, v.IsArray []) (hb : ∀ v ∈ b, v.IsArray []) :
    Contained (tighterBound isUpper a b) fun c => ∀ v ∈ c, v.IsArray [] := by
  have hsome : ∀ {x : Except EvalError (Value α)}, Contained x (Value.IsArray · []) →
      Contained (some <$> x) fun c => ∀ v ∈ c, v.IsArray [] := by
    intro x hx
    exact hx.map fun v hv c hc => Option.some.inj hc ▸ hv
  unfold tighterBound
  split
  · exact hb
  · exact ha
  · split <;> simp [Contained, Value.isArray_number]
  · have hx := ha _ rfl
    have hy := hb _ rfl
    split
    · exact hsome (Builtin.contained_pairwise _ _ hx hy)
    · exact hsome (Builtin.contained_pairwise _ _ hx hy)

/-- All offsets and slopes have no dimensions. -/
def Bijection.OfScalars : Bijection α → Prop
  | .identity | .log | .logit => True
  | .affine offset slope => offset.IsArray [] ∧ slope.IsArray []
  | .compose outer inner => outer.OfScalars ∧ inner.OfScalars
  | .inverse b => b.OfScalars

namespace Bijection

mutual

/-- A bijection of scalars goes forward from scalars to scalars. -/
theorem contained_forward (b : Bijection α) {x : Value α} (hb : b.OfScalars) (hx : x.IsArray []) :
    Contained (b.forward x) (Value.IsArray · []) := by
  match b with
  | .identity => exact hx
  | .log | .logit => exact hx.lift _
  | .affine offset slope =>
    refine (Value.contained_mul hx hb.2 (Tensor.join?_nil [])).bind fun v hv => ?_
    exact Value.contained_add hb.1 hv (Tensor.join?_nil [])
  | .compose outer inner =>
    refine (contained_forward inner hb.2 hx).bind fun v hv => ?_
    exact contained_forward outer hb.1 hv
  | .inverse b => exact contained_backward b hb hx

/-- A bijection of scalars goes backward from scalars to scalars. -/
theorem contained_backward (b : Bijection α) {y : Value α} (hb : b.OfScalars) (hy : y.IsArray []) :
    Contained (b.backward y) (Value.IsArray · []) := by
  match b with
  | .identity => exact hy
  | .log | .logit => exact hy.lift _
  | .affine offset slope =>
    refine (Value.contained_sub hy hb.1 (Tensor.join?_nil [])).bind fun v hv => ?_
    exact Value.contained_quotient hv hb.2 (Tensor.join?_nil [])
  | .compose outer inner =>
    refine (contained_backward outer hb.1 hy).bind fun v hv => ?_
    exact contained_backward inner hb.2 hv
  | .inverse b => exact contained_forward b hb hy

end

/-- The slope of a bijection of scalars is a scalar. -/
theorem contained_logJacobian (b : Bijection α) (hb : b.OfScalars) (hy : y.IsArray []) :
    Contained (b.logJacobian y) (Value.IsArray · []) := by
  induction b generalizing y with
  | identity => exact hy.toTensor.bind fun t ht => ⟨trivial, ht⟩
  | log => exact hy
  | logit =>
    refine (hy.lift _).bind fun v hv => ?_
    refine (hy.neg.lift _).bind fun w hw => ?_
    exact Value.contained_add hv hw (Tensor.join?_nil [])
  | affine offset slope =>
    refine (Builtin.contained_integral _ _ hb.2).bind fun size hsize => ?_
    refine (hsize.lift _).bind fun v hv => ?_
    refine hy.toTensor.bind fun t ht => ?_
    exact Value.contained_mul hv.neg ⟨trivial, ht⟩ (Tensor.join?_nil [])
  | compose outer inner ihouter ihinner =>
    refine (ihouter hb.1 hy).bind fun v hv => ?_
    refine (contained_backward outer hb.1 hy).bind fun z hz => ?_
    refine (ihinner hb.2 hz).bind fun w hw => ?_
    exact Value.contained_add hv hw (Tensor.join?_nil [])
  | inverse b ih =>
    refine (contained_forward b hb hy).bind fun z hz => ?_
    exact (ih hb hz).bind fun v hv => hv.neg

end Bijection

/-- A support of scalars has a bijection of scalars as transform. -/
theorem Transform.contained_ofSupport {s : Support α} (hs : s.OfScalars) :
    Contained (Transform.ofSupport s) fun t => t.map.OfScalars := by
  have hreal : ∀ x : α, (Value.real x).IsArray [] := fun x => Value.isArray_number _
  obtain ⟨lower, upper⟩ := s
  obtain ⟨hlower, hupper⟩ := hs
  match lower, upper with
  | none, none => exact trivial
  | some a, none =>
    show (if isKnown a 0 then log else shiftedLog a).map.OfScalars
    split
    · exact trivial
    · exact ⟨trivial, (hlower a rfl).neg, hreal _⟩
  | none, some b =>
    show (if isKnown b 0 then negLog else shiftedNegLog b).map.OfScalars
    split
    · exact ⟨⟨⟨hreal _, hreal _⟩, trivial⟩, hreal _, hreal _⟩
    · exact ⟨⟨⟨hreal _, hreal _⟩, trivial⟩, hupper b rfl, hreal _⟩
  | some a, some b =>
    have ha := hlower a rfl
    show Contained (if isKnown a 0 && isKnown b 1 then .ok logit else generalLogit a b) _
    split
    · exact trivial
    · unfold generalLogit
      refine (Value.contained_sub (hupper b rfl) ha (Tensor.join?_nil [])).bind fun w hw => ?_
      refine (Value.contained_quotient ha.neg hw (Tensor.join?_nil [])).bind fun o ho => ?_
      refine (Value.contained_quotient (hreal _) hw (Tensor.join?_nil [])).bind fun k hk => ?_
      exact ⟨trivial, ho, hk⟩

/-! ## Distributions -/

/-- A distribution of a sound family, with as many parameters as the family has and without
dimensions in any of them or in a bound; it is truncated only if it has a distribution function. -/
structure BoundDist.OfScalars (d : BoundDist α) : Prop where
  family : d.family.Sound
  count : d.params.length = d.family.params.length
  params : ∀ p ∈ d.params, p.IsArray []
  lower : ∀ b ∈ d.lower, b.IsArray []
  upper : ∀ b ∈ d.upper, b.IsArray []
  logCdf : d.truncated = true → d.family.logCdf.isSome

namespace BoundDist

variable {d : BoundDist α}

/-- A distribution of scalars has a support of scalars. -/
theorem contained_support (hd : d.OfScalars) : Contained d.support Support.OfScalars := by
  have hcheck := hd.count ▸ hd.family.support.accepts d.family.name
  obtain ⟨hlower, hupper⟩ := hd.family.support.bounds d.params hd.count hd.params
  unfold support
  rw [hcheck]
  dsimp only
  refine (contained_tighterBound false hlower hd.lower).bind fun lower hl => ?_
  refine (contained_tighterBound true hupper hd.upper).bind fun upper hu => ?_
  exact ⟨hl, hu⟩

/-- A distribution of scalars has a bijection of scalars as transform. -/
theorem contained_transform (hd : d.OfScalars) :
    Contained d.transform fun t => t.map.OfScalars :=
  (contained_support hd).bind fun _ hs => Transform.contained_ofSupport hs

/-- A distribution of scalars takes a scalar coordinate to a scalar value, with a scalar slope. -/
theorem contained_toConstrained (hd : d.OfScalars) (hy : y.IsArray []) :
    Contained (d.toConstrained y) fun p => p.1.IsArray [] ∧ p.2.IsArray [] := by
  refine (contained_transform hd).bind fun t ht => ?_
  refine (Bijection.contained_backward t.map ht hy).bind fun x hx => ?_
  refine (Bijection.contained_logJacobian t.map ht hy).bind fun slope hslope => ?_
  exact ⟨hx, hslope⟩

/-- Arrays without dimensions are combined to one. -/
theorem contained_zipScalars {β γ δ : Type} (f : β → γ → δ) {a : Tensor β} {b : Tensor γ}
    (ha : a.shape = []) (hb : b.shape = []) :
    Contained (Value.zip .density f a b) fun t => t.shape = [] :=
  Value.contained_zip .density (by rw [ha, hb, Tensor.join?_nil])

/-- The parameters of a distribution of scalars are scalar arrays, one for each. -/
theorem contained_realParams (hd : d.OfScalars) :
    Contained d.realParams fun ts => ts.length = d.params.length ∧ ∀ t ∈ ts, t.shape = [] :=
  Contained.mapM fun p hp => (hd.params p hp).toTensor

/-- A point function gives a scalar at scalars. -/
theorem contained_applyPoint {f : Routine (PointFunction α)} {t : Tensor α}
    {params : List (Tensor α)} (hf : f.Accepts (params.length + 1)) (ht : t.shape = [])
    (hparams : ∀ p ∈ params, p.shape = []) :
    Contained (applyPoint f t params) fun u => u.shape = [] := by
  unfold applyPoint
  rw [hf ""]
  refine (Contained.foldlM (P := fun u => u.shape = []) ht fun p hp c hc => ?_).bind fun u hu => ?_
  · exact contained_zipScalars _ hc (hparams p hp)
  · exact hu

/-- The distribution function is a scalar at a scalar bound. -/
theorem contained_logCdfAt (hd : d.OfScalars) (htruncated : d.truncated = true) {b : Value α}
    (hb : b.IsArray []) {params : List (Tensor α)} (hlength : params.length = d.params.length)
    (hparams : ∀ p ∈ params, p.shape = []) :
    Contained (d.logCdfAt b params) fun t => t.shape = [] := by
  obtain ⟨c, hc⟩ := Option.isSome_iff_exists.mp (hd.logCdf htruncated)
  have haccepts := hd.family.logCdf c hc
  rw [← hd.count, ← hlength] at haccepts
  unfold logCdfAt
  rw [hc]
  exact hb.toTensor.bind fun t ht => contained_applyPoint haccepts ht hparams

/-- The normalizer of a distribution of scalars is a scalar. -/
theorem contained_logNormalizer (hd : d.OfScalars) :
    Contained d.logNormalizer (Value.IsArray · []) := by
  unfold logNormalizer
  refine (contained_realParams hd).bind fun params hparams => ?_
  obtain ⟨hlength, hparams⟩ := hparams
  cases hlower : d.lower with
  | none =>
    cases hupper : d.upper with
    | none => exact Value.isArray_number _
    | some b =>
      have htruncated : d.truncated = true := by simp [truncated, hupper]
      have hcdf := contained_logCdfAt hd htruncated (hd.upper b hupper) hlength hparams
      exact hcdf.bind fun t ht => ⟨trivial, ht⟩
  | some a =>
    have htruncated : d.truncated = true := by simp [truncated, hlower]
    have hbelow := contained_logCdfAt hd htruncated (hd.lower a hlower) hlength hparams
    cases hupper : d.upper with
    | none => exact hbelow.bind fun t ht => ⟨trivial, ht⟩
    | some b =>
      have habove := contained_logCdfAt hd htruncated (hd.upper b hupper) hlength hparams
      refine habove.bind fun above ha => ?_
      refine hbelow.bind fun below hb => ?_
      refine (contained_zipScalars _ hb ha).bind fun ratio hratio => ?_
      refine (contained_zipScalars (· + ·) ha (b := logComplement ratio) hratio).bind
        fun t ht => ?_
      exact ⟨trivial, ht⟩

/-- The test of a scalar against a bound has one answer. -/
theorem contained_insideBound {t : Tensor α} (ht : t.shape = []) {bound : Option (Value α)}
    (hbound : ∀ b ∈ bound, b.IsArray []) (inside : α → α → Bool) :
    Contained (insideBound t bound inside) fun u => ∀ m ∈ u, m.shape = [] := by
  cases bound with
  | none => simp [insideBound, Contained, Pure.pure, Except.pure]
  | some b =>
    refine ((hbound b rfl).operand _).bind fun u hu => ?_
    refine (contained_zipScalars _ ht hu).bind fun m hm => ?_
    rintro _ ⟨⟩
    exact hm

/-- The tests of both bounds come to one answer. -/
theorem contained_insideBoth {a b : Option (Tensor Bool)} (ha : ∀ m ∈ a, m.shape = [])
    (hb : ∀ m ∈ b, m.shape = []) :
    Contained (insideBoth a b) fun u => ∀ m ∈ u, m.shape = [] := by
  unfold insideBoth
  split
  · exact hb
  · exact ha
  · refine (contained_zipScalars _ (ha _ rfl) (hb _ rfl)).bind fun m hm => ?_
    rintro _ ⟨⟩
    exact hm

/-- The density of a distribution of scalars at a scalar. -/
theorem contained_logPdf (hd : d.OfScalars) (hx : x.IsArray []) :
    Contained (d.logPdf x) (Value.IsArray · []) := by
  unfold logPdf
  refine hx.toTensor.bind fun t ht => ?_
  refine (contained_realParams hd).bind fun params hparams => ?_
  have haccepts := hd.family.logPdf
  rw [← hd.count, ← hparams.1] at haccepts
  refine (contained_applyPoint haccepts ht hparams.2).bind fun logP hlogP => ?_
  have hstart : (Value.array .density logP).IsArray [] := ⟨trivial, hlogP⟩
  split
  · refine (contained_insideBound ht hd.lower _).bind fun low hlow => ?_
    refine (contained_insideBound ht hd.upper _).bind fun high hhigh => ?_
    refine (contained_logNormalizer hd).bind fun normalizer hnormalizer => ?_
    refine (Value.contained_sub hstart hnormalizer (Tensor.join?_nil [])).bind
      fun scaled hscaled => ?_
    refine (contained_insideBoth hlow hhigh).bind fun inside hinside => ?_
    cases inside with
    | none => exact hscaled
    | some m =>
      refine hscaled.toTensor.bind fun u hu => ?_
      refine (contained_zipScalars _ (hinside m rfl) hu).bind fun w hw => ?_
      exact ⟨trivial, hw⟩
  · exact hstart

end BoundDist

end BayesGraph
