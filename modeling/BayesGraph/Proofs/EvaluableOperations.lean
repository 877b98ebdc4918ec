import BayesGraph.Evaluation
import BayesGraph.Folding
import BayesGraph.Proofs.Outcome

/-!
# Arithmetic never asks for a resolved expression

That an expression has no value because it is unresolved is an error of the evaluator of
expressions. Operations on values, densities and transforms have errors of their own, but never
report this one. Each lemma here says so of one operation (`Evaluable`), by the operations that it
is made of.
-/

set_option autoImplicit false

namespace BayesGraph

open Outcome

/-- The computation never reports that an expression is unresolved. -/
abbrev Evaluable {ν : Type} (x : Except EvalError ν) : Prop := FailsWith (· ≠ .unevaluable) x

namespace Datum

/-- A text that is no number is an error of its own. -/
theorem evaluable_readText (s : String) : Evaluable (readText s) := by
  unfold readText
  split
  · exact .ok _
  · exact .error nofun

/-- An entry of raw data is a real or an error of the data. -/
theorem evaluable_entry (d : Datum) : Evaluable d.entry := by
  unfold entry
  split
  · split
    · exact .ok _
    · exact .error nofun
  · exact .ok _
  · exact .ok _
  · exact .ok _
  · exact evaluable_readText _
  · exact .error nofun
  · exact .error nofun

/-- Raw data as an array of reals fails for its shape or for one of its entries. -/
theorem evaluable_tensor (d : Datum) : Evaluable d.tensor := by
  unfold tensor
  split
  · exact .error nofun
  · unfold Tensor.mapM
    split
    · exact .ok _
    · next e he => exact .error (FailsWith.mapM (fun d _ => evaluable_entry d) e he)

end Datum

namespace Value

variable {α : Type} [Scalar α]

/-! ## Conversions -/

/-- An integer that is too large overflows. -/
theorem evaluable_ofInt (n : Int) : Evaluable (ofInt n : Except EvalError α) := by
  unfold ofInt
  split
  · exact .ok _
  · exact .error nofun

/-- A known number fails as an overflow only. -/
theorem evaluable_ofNumber (n : Number α) : Evaluable (ofNumber n) := by
  cases n with
  | int n => exact evaluable_ofInt n
  | real x => exact .ok x

/-- A value as an array of reals. -/
theorem evaluable_toTensor (v : Value α) : Evaluable v.toTensor := by
  cases v with
  | number n => exact (evaluable_ofNumber n).map
  | word r w => exact .ok _
  | array r t => exact .ok t
  | object d => exact (Datum.evaluable_tensor d).bind fun t => .pure _

/-- A value as a single real. -/
theorem evaluable_toScalar (v : Value α) : Evaluable v.toScalar := by
  unfold toScalar
  split
  · exact (Datum.evaluable_readText _).map
  · exact .error nofun
  · refine (evaluable_toTensor v).bind fun t => ?_
    split
    · exact .pure _
    · exact .error nofun

/-- A value as a known number. -/
theorem evaluable_toNumber (v : Value α) : Evaluable v.toNumber := by
  unfold toNumber
  refine (evaluable_toScalar v).bind fun x => ?_
  split
  · exact .pure _
  · exact .pure _

/-- An integer as a scalar under given rules. -/
theorem evaluable_scalarOfInt (rules : Rules) (n : Int) :
    Evaluable (scalarOfInt rules n : Except EvalError α) := by
  unfold scalarOfInt
  split
  · split
    · exact .ok _
    · exact .error nofun
  · exact evaluable_ofInt n

/-- A raw object as an array of reals. -/
theorem evaluable_arrayOfObject (rules : Rules) (d : Datum) :
    Evaluable (arrayOfObject rules d : Except EvalError (Tensor α)) := by
  unfold arrayOfObject
  split
  · exact evaluable_toTensor _
  · exact .error nofun

/-- A value as an operand beside computed values. -/
theorem evaluable_operand (rules : Rules) (v : Value α) : Evaluable (v.operand rules) := by
  unfold operand
  split
  · exact (evaluable_scalarOfInt rules _).map
  · split
    · exact .error nofun
    · exact evaluable_arrayOfObject _ _
  · exact evaluable_arrayOfObject rules _
  · exact evaluable_toTensor v

/-- A value as the argument of a function of reals. -/
theorem evaluable_argument (rules : Rules) (v : Value α) : Evaluable (v.argument rules) := by
  unfold argument
  split
  · split
    · exact .error nofun
    · exact (evaluable_scalarOfInt rules _).map
  · exact evaluable_arrayOfObject rules _
  · exact evaluable_toTensor v

/-! ## Operations entry by entry -/

omit [Scalar α] in
/-- Two arrays that cannot be broadcast are an error of shapes. -/
theorem evaluable_zip {β γ δ : Type} (rules : Rules) (f : β → γ → δ) (a : Tensor β) (b : Tensor γ) :
    Evaluable (zip rules f a b) := by
  unfold zip
  split
  · exact .ok _
  · split
    · exact .error nofun
    · exact .error nofun

/-- A function of reals on every entry fails where its argument does. -/
theorem evaluable_lift (rules : Rules) (f : α → α) (v : Value α) : Evaluable (v.lift rules f) :=
  (evaluable_argument rules v).bind fun _ => .pure _

/-- Stacking values fails where one of them is no array. -/
theorem evaluable_block (rules : Rules) (vs : List (Value α)) (shape : List Nat) :
    Evaluable (block rules vs shape) := by
  unfold block
  refine (FailsWith.mapM fun v _ => evaluable_toTensor v).bind fun ts => ?_
  split
  · exact .error nofun
  · split
    · exact .pure _
    · exact .error (by split <;> nofun)

/-- An operation on reals fails where an operand or the broadcasting does. -/
theorem evaluable_combine (f : α → α → α) (x y : Value α) : Evaluable (x.combine f y) := by
  unfold combine
  refine (evaluable_operand _ x).bind fun a => ?_
  refine (evaluable_operand _ y).bind fun b => ?_
  exact (evaluable_zip _ _ a b).bind fun _ => .pure _

/-- A quotient of computed values. -/
theorem evaluable_divide (rules : Rules) (x y : Value α) : Evaluable (x.divide rules y) := by
  unfold divide
  refine (evaluable_operand rules x).bind fun a => ?_
  refine (evaluable_operand rules y).bind fun b => ?_
  exact (evaluable_zip _ _ a b).bind fun _ => .pure _

/-! ## Operators -/

omit [Scalar α] in
/-- An integer beside a word fails where it does not fit. -/
theorem evaluable_besideWord (r : Rules) (w : Word) (n result : Int) :
    Evaluable (besideWord r w n result : Except EvalError (Value α)) := by
  unfold besideWord
  split
  · exact .ok _
  · exact .error nofun

/-- The arithmetic of two values, by the kinds that stand beside each other. -/
theorem evaluable_arithmetic (onInts : Int → Int → Int) (onReals : α → α → α) (x y : Value α) :
    Evaluable (arithmetic onInts onReals x y) := by
  unfold arithmetic
  split
  · exact .ok _
  · refine (evaluable_ofNumber _).bind fun a => ?_
    exact (evaluable_ofNumber _).bind fun b => .pure _
  · exact evaluable_besideWord _ _ _ _
  · exact evaluable_besideWord _ _ _ _
  · split
    · exact .ok _
    · exact evaluable_combine _ _ _
  · exact .error nofun
  · exact .error nofun
  · exact .error nofun
  · exact evaluable_combine _ _ _

omit [Scalar α] in
/-- A text or a list cannot be repeated too often. -/
theorem evaluable_repeated (d : Datum) (count : Int) :
    Evaluable (repeated d count : Except EvalError (Value α)) := by
  unfold repeated
  split
  · exact .error nofun
  · split
    · exact .ok _
    · exact .error nofun

/-- A sum is arithmetic, or puts raw objects together. -/
theorem evaluable_add (x y : Value α) : Evaluable (x.add y) := by
  unfold add
  split
  · split
    · exact .ok _
    · exact .error nofun
  · exact evaluable_arithmetic _ _ _ _

/-- A difference is arithmetic. -/
theorem evaluable_sub (x y : Value α) : Evaluable (x.sub y) := evaluable_arithmetic _ _ x y

/-- A product is arithmetic, or repeats a raw object. -/
theorem evaluable_mul (x y : Value α) : Evaluable (x.mul y) := by
  unfold mul
  split
  · exact evaluable_repeated _ _
  · exact evaluable_repeated _ _
  · exact evaluable_arithmetic _ _ _ _

/-- A raw object has no negative. -/
theorem evaluable_negate (x : Value α) : Evaluable x.negate := by
  unfold negate
  split
  · exact .error nofun
  · exact .ok _

/-- A quotient of integers fails for a zero divisor or an overflow. -/
theorem evaluable_quotientOfInts (m n : Int) :
    Evaluable (quotientOfInts m n : Except EvalError α) := by
  unfold quotientOfInts
  split
  · exact .error nofun
  · split
    · exact .ok _
    · exact .error nofun

/-- A quotient of known numbers. -/
theorem evaluable_quotientOfNumbers (a b : Number α) : Evaluable (quotientOfNumbers a b) := by
  unfold quotientOfNumbers
  split
  · exact (evaluable_quotientOfInts _ _).map
  · refine (evaluable_ofNumber a).bind fun x => ?_
    refine (evaluable_ofNumber b).bind fun y => ?_
    split
    · exact .error nofun
    · exact .pure _

/-- A quotient of any two values. -/
theorem evaluable_quotient (x y : Value α) : Evaluable (x.quotient y) := by
  unfold quotient
  split
  · exact (evaluable_quotientOfNumbers _ _).map
  · exact evaluable_divide _ _ _

/-- The base of a power as reals. -/
theorem evaluable_base (rules : Rules) (v : Value α) : Evaluable (v.base rules) := by
  unfold base
  split
  · split
    · exact .ok _
    · exact .error nofun
  · exact evaluable_toTensor v

/-- A power, of known numbers or of reals. -/
theorem evaluable_power (rules : Rules) (x y : Value α) : Evaluable (x.power rules y) := by
  unfold power
  refine (evaluable_base rules x).bind fun a => ?_
  split
  · exact .pure _
  · refine (evaluable_operand _ y).bind fun b => ?_
    exact (evaluable_zip _ _ a b).bind fun _ => .pure _
  · refine (evaluable_operand _ y).bind fun b => ?_
    exact (evaluable_zip _ _ a b).bind fun _ => .pure _

end Value

namespace Builtin

variable {α : Type} [Scalar α]

omit [Scalar α] in
/-- A known integer as one that a function computes with. -/
theorem evaluable_computedInt (rules : Rules) (n : Int) :
    Evaluable (computedInt rules n : Except EvalError (Value α)) := by
  unfold computedInt
  split
  · split
    · exact .ok _
    · exact .error nofun
  · split
    · exact .ok _
    · exact .ok _

/-- A value as a computed one. -/
theorem evaluable_computed (rules : Rules) (v : Value α) : Evaluable (computed rules v) := by
  unfold computed
  split
  · exact evaluable_computedInt rules _
  · exact .ok _
  · exact (Value.evaluable_arrayOfObject rules _).bind fun t => .pure _
  · exact .ok _

/-- A function that keeps integers integral. -/
theorem evaluable_integral (rules : Rules) (onInt : Int → Int) (onReal : α → α) (v : Value α) :
    Evaluable (integral rules onInt onReal v) := by
  unfold integral
  refine (evaluable_computed rules v).bind fun x => ?_
  split
  · exact .pure _
  · exact .pure _
  · exact (Value.evaluable_argument rules _).bind fun t => .pure _

/-- An operation of a function on two values, entry by entry. -/
theorem evaluable_pairwise (rules : Rules) (onInts : Int → Int → Int) (onReals : α → α → α)
    (x y : Value α) : Evaluable (pairwise rules onInts onReals x y) := by
  unfold pairwise
  dsimp only
  split
  · exact .error nofun
  · split
    · refine FailsWith.bind ?_ fun a => FailsWith.bind ?_ fun b =>
        Value.evaluable_arithmetic _ _ a b
      · split
        · exact .ok _
        · exact .error nofun
      · split
        · exact .ok _
        · exact .error nofun
    · exact (evaluable_computed _ _).bind fun b => Value.evaluable_arithmetic _ _ _ b
    · exact (evaluable_computed _ _).bind fun a => Value.evaluable_arithmetic _ _ a _
    · refine (evaluable_computed _ _).bind fun a => ?_
      exact (evaluable_computed _ _).bind fun b => Value.evaluable_arithmetic _ _ a b

end Builtin

/-! ## Transforms -/

namespace Bijection

variable {α : Type} [Scalar α]

mutual

/-- The forward map of a transform computes with its bounds and fails where they do. -/
theorem evaluable_forward (b : Bijection α) (x : Value α) : Evaluable (b.forward x) := by
  match b with
  | .identity => exact .ok x
  | .log | .logit => exact Value.evaluable_lift _ _ _
  | .affine offset slope =>
    rw [forward]
    exact (Value.evaluable_mul _ _).bind fun y => Value.evaluable_add _ _
  | .compose outer inner =>
    rw [forward]
    exact (evaluable_forward inner x).bind fun y => evaluable_forward outer y
  | .inverse b => exact evaluable_backward b x

/-- The backward map of a transform. -/
theorem evaluable_backward (b : Bijection α) (y : Value α) : Evaluable (b.backward y) := by
  match b with
  | .identity => exact .ok y
  | .log | .logit => exact Value.evaluable_lift _ _ _
  | .affine offset slope =>
    rw [backward]
    exact (Value.evaluable_sub _ _).bind fun x => Value.evaluable_quotient _ _
  | .compose outer inner =>
    rw [backward]
    exact (evaluable_backward outer y).bind fun x => evaluable_backward inner x
  | .inverse b => exact evaluable_forward b y

end

/-- The log-Jacobian of a transform. -/
theorem evaluable_logJacobian (b : Bijection α) (y : Value α) : Evaluable (b.logJacobian y) := by
  induction b generalizing y with
  | identity => exact (Value.evaluable_toTensor y).bind fun t => .pure _
  | log => exact .ok y
  | logit =>
    refine (Value.evaluable_lift _ _ y).bind fun a => ?_
    exact (Value.evaluable_lift _ _ _).bind fun b => Value.evaluable_add a b
  | affine offset slope =>
    refine (Builtin.evaluable_integral _ _ _ _).bind fun size => ?_
    refine (Value.evaluable_lift _ _ _).bind fun a => ?_
    exact (Value.evaluable_toTensor y).bind fun t => Value.evaluable_mul _ _
  | compose outer inner ihouter ihinner =>
    refine (ihouter y).bind fun a => ?_
    refine (evaluable_backward outer y).bind fun x => ?_
    exact (ihinner x).bind fun b => Value.evaluable_add a b
  | inverse b ih =>
    refine (evaluable_forward b y).bind fun x => ?_
    exact (ih x).bind fun a => .pure _

end Bijection

namespace Transform

variable {α : Type} [Scalar α]

/-- The transform between two bounds divides by their difference. -/
theorem evaluable_generalLogit (lower upper : Value α) : Evaluable (generalLogit lower upper) := by
  unfold generalLogit
  refine (Value.evaluable_sub _ _).bind fun width => ?_
  refine (Value.evaluable_quotient _ _).bind fun offset => ?_
  exact (Value.evaluable_quotient _ _).bind fun slope => .pure _

/-- The transform of a support depends on which of its bounds are known. -/
theorem evaluable_ofSupport (s : Support α) : Evaluable (ofSupport s) := by
  unfold ofSupport
  split
  · exact .ok _
  · exact .ok _
  · exact .ok _
  · split
    · exact .ok _
    · exact evaluable_generalLogit _ _

end Transform

/-! ## Distributions -/

/-- The tighter one of two bounds compares them as numbers. -/
theorem evaluable_tighterBound {α : Type} [Scalar α] (isUpper : Bool) (a b : Option (Value α)) :
    Evaluable (tighterBound isUpper a b) := by
  unfold tighterBound
  split
  · exact .ok _
  · exact .ok _
  · split
    · exact .ok _
    · exact .ok _
  · split
    · exact (Builtin.evaluable_pairwise _ _ _ _ _).bind fun v => .pure _
    · exact (Builtin.evaluable_pairwise _ _ _ _ _).bind fun v => .pure _

namespace BoundDist

variable {α : Type} [Scalar α] (d : BoundDist α)

/-- The transform of a distribution is that of its truncated support. -/
theorem evaluable_transform : Evaluable d.transform := by
  unfold transform
  refine FailsWith.bind ?_ fun s => Transform.evaluable_ofSupport s
  unfold support
  split
  · exact .error nofun
  · refine (evaluable_tighterBound _ _ _).bind fun lower => ?_
    exact (evaluable_tighterBound _ _ _).bind fun upper => .pure _

/-- The value of a parameter on the constrained scale. -/
theorem evaluable_toConstrained (y : Value α) : Evaluable (d.toConstrained y) := by
  unfold toConstrained
  refine d.evaluable_transform.bind fun t => ?_
  refine (t.map.evaluable_backward y).bind fun x => ?_
  exact (t.map.evaluable_logJacobian y).bind fun slope => .pure _

/-- The value of a parameter on the unconstrained scale. -/
theorem evaluable_toUnconstrained (x : Value α) : Evaluable (d.toUnconstrained x) :=
  d.evaluable_transform.bind fun t => t.map.evaluable_forward x

/-- A routine of a family is missing or is applied to arrays of any number. -/
theorem evaluable_applyPoint (f : Routine (PointFunction α)) (x : Tensor α)
    (params : List (Tensor α)) : Evaluable (applyPoint f x params) := by
  unfold applyPoint
  split
  · exact .error nofun
  · exact (FailsWith.foldlM (fun t _ a => Value.evaluable_zip _ _ a t) _).bind fun points => .pure _

/-- The log-CDF at a bound. -/
theorem evaluable_logCdfAt (bound : Value α) (params : List (Tensor α)) :
    Evaluable (d.logCdfAt bound params) := by
  unfold logCdfAt
  split
  · exact .error nofun
  · exact (Value.evaluable_toTensor bound).bind fun t => evaluable_applyPoint _ _ _

/-- The parameters of a distribution as reals. -/
theorem evaluable_realParams : Evaluable d.realParams :=
  FailsWith.mapM fun v _ => Value.evaluable_toTensor v

/-- The normalizer of a truncation. -/
theorem evaluable_logNormalizer : Evaluable d.logNormalizer := by
  unfold logNormalizer
  refine d.evaluable_realParams.bind fun params => ?_
  split
  · exact .pure _
  · exact (d.evaluable_logCdfAt _ _).bind fun t => .pure _
  · exact (d.evaluable_logCdfAt _ _).bind fun t => .pure _
  · refine (d.evaluable_logCdfAt _ _).bind fun above => ?_
    refine (d.evaluable_logCdfAt _ _).bind fun below => ?_
    refine (Value.evaluable_zip _ _ _ _).bind fun ratio => ?_
    exact (Value.evaluable_zip _ _ _ _).bind fun t => .pure _

/-- The comparison of a value with one bound. -/
theorem evaluable_insideBound (x : Tensor α) (bound : Option (Value α)) (inside : α → α → Bool) :
    Evaluable (insideBound x bound inside) := by
  unfold insideBound
  split
  · exact .pure _
  · refine (Value.evaluable_operand _ _).bind fun t => ?_
    exact (Value.evaluable_zip _ _ _ _).bind fun t => .pure _

omit [Scalar α] in
/-- The comparison with both bounds fails for shapes only. -/
theorem evaluable_insideBoth (a b : Option (Tensor Bool)) : Evaluable (insideBoth a b) := by
  unfold insideBoth
  split
  · exact .ok _
  · exact .ok _
  · exact (Value.evaluable_zip _ _ _ _).bind fun t => .pure _

/-- The log-density of a distribution at a value. -/
theorem evaluable_logPdf (x : Value α) : Evaluable (d.logPdf x) := by
  unfold logPdf
  refine (Value.evaluable_toTensor x).bind fun t => ?_
  refine d.evaluable_realParams.bind fun params => ?_
  refine (evaluable_applyPoint _ _ _).bind fun logP => ?_
  split
  · refine (evaluable_insideBound _ _ _).bind fun low => ?_
    refine (evaluable_insideBound _ _ _).bind fun high => ?_
    refine d.evaluable_logNormalizer.bind fun normalizer => ?_
    refine (Value.evaluable_sub _ _).bind fun scaled => ?_
    refine (evaluable_insideBoth _ _).bind fun inside => ?_
    split
    · exact .pure _
    · refine (Value.evaluable_toTensor _).bind fun u => ?_
      exact (Value.evaluable_zip _ _ _ _).bind fun w => .pure _
  · exact .pure _

end BoundDist

end BayesGraph
