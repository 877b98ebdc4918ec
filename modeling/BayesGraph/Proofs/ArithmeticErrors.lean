import Mathlib
import BayesGraph.BoundDist
import BayesGraph.Eval
import BayesGraph.Proofs.References
import BayesGraph.Proofs.Terms

/-!
# Errors of the arithmetic and no others

A computation is contained if it has a result with some property, or raises an error that belongs to
the arithmetic: an overflow, a division of known numbers by zero, or a domain error of a function.
Operations on numbers are contained wherever shapes can be broadcast, and without dimensions they
always can. From this follows, along the syntax, that an expression is contained if it fits: slices
select something, operands can be broadcast, and calls are contained themselves.
-/

set_option autoImplicit false

namespace BayesGraph

open Outcome

/-- A result with a property, or an error of the arithmetic. -/
def Contained {β : Type} (x : Except EvalError β) (P : β → Prop) : Prop :=
  match x with
  | .ok b => P b
  | .error e => e.isArithmetic = true

namespace Contained

variable {β γ : Type} {P Q : β → Prop} {R : γ → Prop} {x : Except EvalError β}

/-- A result with the property is contained. -/
theorem pure {b : β} (h : P b) : Contained (Pure.pure b) P := h

/-- The property of the result can be weakened. -/
theorem mono (h : Contained x P) (hPQ : ∀ b, P b → Q b) : Contained x Q := by
  cases x with
  | ok b => exact hPQ b h
  | error e => exact h

/-- Steps one after the other are contained if the second one is for each result of the first. -/
theorem bind {f : β → Except EvalError γ} (hx : Contained x P)
    (hf : ∀ b, P b → Contained (f b) R) : Contained (x >>= f) R := by
  cases x with
  | ok b => exact hf b hx
  | error e => exact hx

/-- What a result is known to be may be used behind it. -/
theorem bind_of_ok {f : β → Except EvalError γ} (hx : Contained x P)
    (hf : ∀ b, x = .ok b → P b → Contained (f b) R) : Contained (x >>= f) R := by
  cases x with
  | ok b => exact hf b rfl hx
  | error e => exact hx

/-- A function of the result keeps a computation contained, if it leads from one property to the
other. -/
theorem map {f : β → γ} (hx : Contained x P) (hf : ∀ b, P b → R (f b)) :
    Contained (x.map f) R := by
  cases x with
  | ok b => exact hf b hx
  | error e => exact hx

/-- A property that holds of every result may be added. -/
theorem and_of_ok {Q : β → Prop} (hP : Contained x P) (hQ : ∀ b, x = .ok b → Q b) :
    Contained x fun b => P b ∧ Q b := by
  cases x with
  | ok b => exact ⟨hP, hQ b rfl⟩
  | error e => exact hP

/-- A result that is known has the property. -/
theorem of_ok {b : β} (h : Contained x P) (hx : x = .ok b) : P b := by
  subst hx
  exact h

/-- If the computation fails, its error belongs to the arithmetic. -/
theorem isArithmetic {e : EvalError} (h : Contained x P) (hx : x = .error e) :
    e.isArithmetic = true := by
  subst hx
  exact h

/-- Contained steps over a list give a list of the same length, and the property holds of each
entry. -/
theorem mapM {f : γ → Except EvalError β} {zs : List γ} (h : ∀ z ∈ zs, Contained (f z) P) :
    Contained (zs.mapM f) fun bs => bs.length = zs.length ∧ ∀ b ∈ bs, P b := by
  induction zs with
  | nil => exact pure ⟨rfl, by simp⟩
  | cons z zs ih =>
    rw [List.mapM_cons]
    refine (h z List.mem_cons_self).bind fun b hb => ?_
    refine (ih fun y hy => h y (List.mem_cons_of_mem z hy)).bind fun bs hbs => ?_
    apply pure
    exact ⟨by simp [hbs.1], List.forall_mem_cons.mpr ⟨hb, hbs.2⟩⟩

/-- A fold is contained if its steps keep the property. -/
theorem foldlM {f : β → γ → Except EvalError β} {zs : List γ} {b : β} (hb : P b)
    (h : ∀ z ∈ zs, ∀ c, P c → Contained (f c z) P) : Contained (zs.foldlM f b) P := by
  induction zs generalizing b with
  | nil => exact pure hb
  | cons z zs ih =>
    rw [List.foldlM_cons]
    refine (h z List.mem_cons_self b hb).bind fun c hc => ?_
    exact ih hc fun y hy => h y (List.mem_cons_of_mem z hy)

/-- What holds of a fold may depend on which part of the list came before. -/
theorem foldlM_of_prefix {f : β → γ → Except EvalError β} {zs : List γ} {b : β} (hb : P b)
    (h : ∀ before z after c, zs = before ++ z :: after → before.foldlM f b = .ok c → P c →
      Contained (f c z) P) : Contained (zs.foldlM f b) P := by
  induction zs using List.reverseRecOn with
  | nil => exact pure hb
  | append_singleton zs z ih =>
    rw [List.foldlM_append]
    refine (ih fun before y after c hsplit => ?_).bind_of_ok fun c hc hP => ?_
    · exact h before y (after ++ [z]) c (by simp [hsplit])
    · rw [foldlM_singleton]
      exact h zs z [] c rfl hc hP

/-- A step for an optional value is contained, whether it is there or not. -/
theorem optionMapM {f : γ → Except EvalError β} {z : Option γ} (h : ∀ y ∈ z, Contained (f y) P) :
    Contained (z.mapM f) fun b => ∀ c ∈ b, P c := by
  cases z with
  | none => exact pure (by simp)
  | some y =>
    rw [Option.mapM_some]
    refine (h y rfl).bind fun b hb => ?_
    exact pure (by simpa using hb)

end Contained

namespace Value

variable {α : Type}

/-- The value is a number, or an array of numbers. -/
def IsNumeric : Value α → Prop
  | .object _ => False
  | .number _ | .word _ _ | .array _ _ => True

/-- The value is numeric and has a given shape. -/
structure IsArray (v : Value α) (shape : List Nat) : Prop where
  numeric : v.IsNumeric
  shape_eq : v.shape = shape

variable {x y v : Value α} {s : List Nat}

/-- A number has no dimensions. -/
theorem isArray_number (n : Number α) : (number n).IsArray [] := ⟨trivial, rfl⟩

/-- A word has no dimensions. -/
theorem isArray_word (r : Rules) (w : Word) : (word r w : Value α).IsArray [] := ⟨trivial, rfl⟩

/-- An array has the shape of its entries. -/
theorem isArray_array (r : Rules) (t : Tensor α) : (array r t).IsArray t.shape := ⟨trivial, rfl⟩

/-- A negated value has the same shape. -/
theorem IsArray.neg [Scalar α] (h : x.IsArray s) : x.neg.IsArray s := by
  obtain ⟨hx, rfl⟩ := h
  rcases x with (_ | _) | _ | _ | _
  · exact isArray_number _
  · exact isArray_number _
  · exact isArray_word _ _
  · exact isArray_array _ _
  · exact hx.elim

variable [Scalar α]

/-! ## Conversions -/

/-- A known integer is a scalar, unless it overflows. -/
theorem contained_ofInt (n : Int) : Contained (ofInt n : Except EvalError α) fun _ => True := by
  unfold ofInt
  cases Double.ofInt? n with
  | none => exact rfl
  | some _ => exact trivial

/-- A known number is a scalar, unless it overflows. -/
theorem contained_ofNumber (n : Number α) : Contained (ofNumber n) fun _ => True := by
  cases n with
  | int n => exact contained_ofInt n
  | real x => exact trivial

/-- An integer is a scalar under all rules, unless it overflows. -/
theorem contained_scalarOfInt (rules : Rules) (n : Int) :
    Contained (scalarOfInt rules n : Except EvalError α) fun _ => True := by
  cases rules with
  | folding => exact contained_ofInt n
  | density =>
    unfold scalarOfInt
    dsimp only
    split
    · exact trivial
    · exact rfl

/-- As an array of reals, a value keeps its shape. -/
theorem IsArray.toTensor (h : x.IsArray s) : Contained x.toTensor fun t => t.shape = s := by
  obtain ⟨hx, rfl⟩ := h
  cases x with
  | number n => exact (contained_ofNumber n).map fun _ _ => rfl
  | word r w => exact rfl
  | array r t => exact rfl
  | object d => exact hx.elim

/-- As an operand, a value keeps its shape. -/
theorem IsArray.operand (h : x.IsArray s) (rules : Rules) :
    Contained (x.operand rules) fun t => t.shape = s := by
  obtain ⟨hx, rfl⟩ := h
  rcases x with (n | _) | _ | _ | _
  · exact (contained_scalarOfInt rules n).map fun _ _ => rfl
  · exact rfl
  · exact rfl
  · exact rfl
  · exact hx.elim

/-- As an argument of a function, a value keeps its shape. -/
theorem IsArray.argument (h : x.IsArray s) :
    Contained (x.argument .density) fun t => t.shape = s := by
  obtain ⟨hx, rfl⟩ := h
  rcases x with (n | _) | _ | _ | _
  · exact (contained_scalarOfInt .density n).map fun _ _ => rfl
  · exact rfl
  · exact rfl
  · exact rfl
  · exact hx.elim

/-! ## Operations -/

/-- Arrays whose shapes can be broadcast are combined to the common shape. -/
theorem contained_zip {β γ δ : Type} {f : β → γ → δ} {a : Tensor β} {b : Tensor γ} (rules : Rules)
    (h : Tensor.join? a.shape b.shape = some s) :
    Contained (zip rules f a b) fun t => t.shape = s := by
  obtain ⟨c, hc⟩ := Tensor.exists_zipWith? f h
  have hshape : c.shape = s := by
    rw [(Tensor.zipWith?_eq_some_iff.mp hc).1, Option.some.injEq] at h
    exact h
  unfold zip
  rw [hc]
  exact hshape

/-- A function of reals, applied to every entry, keeps the shape. -/
theorem IsArray.lift (h : x.IsArray s) (f : α → α) :
    Contained (x.lift .density f) (IsArray · s) := by
  unfold Value.lift
  refine h.argument.bind fun t ht => ?_
  exact Contained.pure ⟨trivial, ht⟩

section Broadcast

variable {xs ys : List Nat}

/-- An operation on values is contained where the shapes can be broadcast. -/
theorem contained_combine (f : α → α → α) (hx : x.IsArray xs) (hy : y.IsArray ys)
    (h : Tensor.join? xs ys = some s) : Contained (x.combine f y) (IsArray · s) := by
  unfold combine
  refine (hx.operand _).bind fun a ha => ?_
  refine (hy.operand _).bind fun b hb => ?_
  refine (contained_zip _ (by rw [ha, hb, h])).bind fun t ht => ?_
  exact Contained.pure ⟨trivial, ht⟩

omit [Scalar α] in
/-- An integer beside a word gives a value without dimensions, unless the result overflows. -/
theorem contained_besideWord (r : Rules) (w : Word) (n result : Int) :
    Contained (besideWord r w n result : Except EvalError (Value α)) (IsArray · []) := by
  unfold besideWord
  split
  · exact isArray_word _ _
  · exact rfl

/-- Sums, differences and products of numbers are contained wherever shapes can be broadcast. -/
theorem contained_arithmetic (onInts : Int → Int → Int) (onReals : α → α → α)
    (hx : x.IsArray xs) (hy : y.IsArray ys) (h : Tensor.join? xs ys = some s) :
    Contained (arithmetic onInts onReals x y) (IsArray · s) := by
  have hcombine : Contained (x.combine onReals y) (IsArray · s) := contained_combine onReals hx hy h
  have hnil : ∀ {v w : Value α}, v.shape = [] → w.shape = [] → v = x → w = y → s = [] := by
    rintro v w hv hw rfl rfl
    rw [← hx.shape_eq, ← hy.shape_eq, hv, hw] at h
    exact (Option.some.inj h).symm
  unfold arithmetic
  split
  · obtain rfl := hnil rfl rfl rfl rfl
    exact isArray_number _
  · obtain rfl := hnil rfl rfl rfl rfl
    refine (contained_ofNumber _).bind fun a _ => ?_
    refine (contained_ofNumber _).bind fun b _ => ?_
    exact isArray_number _
  · obtain rfl := hnil rfl rfl rfl rfl
    exact contained_besideWord _ _ _ _
  · obtain rfl := hnil rfl rfl rfl rfl
    exact contained_besideWord _ _ _ _
  · obtain rfl := hnil rfl rfl rfl rfl
    split
    · exact isArray_word _ _
    · exact hcombine
  · exact hx.numeric.elim
  · exact hx.numeric.elim
  · exact hy.numeric.elim
  · exact hcombine

/-- A sum is contained where the shapes can be broadcast. -/
theorem contained_add (hx : x.IsArray xs) (hy : y.IsArray ys) (h : Tensor.join? xs ys = some s) :
    Contained (x.add y) (IsArray · s) := by
  unfold add
  split
  · exact hx.numeric.elim
  · exact contained_arithmetic _ _ hx hy h

/-- A difference is contained where the shapes can be broadcast. -/
theorem contained_sub (hx : x.IsArray xs) (hy : y.IsArray ys) (h : Tensor.join? xs ys = some s) :
    Contained (x.sub y) (IsArray · s) :=
  contained_arithmetic _ _ hx hy h

/-- A product is contained where the shapes can be broadcast. -/
theorem contained_mul (hx : x.IsArray xs) (hy : y.IsArray ys) (h : Tensor.join? xs ys = some s) :
    Contained (x.mul y) (IsArray · s) := by
  unfold mul
  split
  · exact hx.numeric.elim
  · exact hy.numeric.elim
  · exact contained_arithmetic _ _ hx hy h

/-- A quotient of computed values is contained where the shapes can be broadcast. -/
theorem contained_divide (rules : Rules) (hx : x.IsArray xs) (hy : y.IsArray ys)
    (h : Tensor.join? xs ys = some s) : Contained (x.divide rules y) (IsArray · s) := by
  unfold divide
  refine (hx.operand _).bind fun a ha => ?_
  refine (hy.operand _).bind fun b hb => ?_
  refine (contained_zip _ (by rw [ha, hb, h])).bind fun t ht => ?_
  exact Contained.pure ⟨trivial, ht⟩

/-- A division of known numbers fails with errors of the arithmetic only, such as a zero divisor. -/
theorem contained_quotientOfNumbers (a b : Number α) :
    Contained (quotientOfNumbers a b) fun _ => True := by
  unfold quotientOfNumbers
  split
  · unfold quotientOfInts
    split
    · exact rfl
    · split
      · exact trivial
      · exact rfl
  · refine (contained_ofNumber _).bind fun p _ => ?_
    refine (contained_ofNumber _).bind fun q _ => ?_
    split
    · exact rfl
    · exact trivial

/-- A quotient is contained where the shapes can be broadcast. -/
theorem contained_quotient (hx : x.IsArray xs) (hy : y.IsArray ys)
    (h : Tensor.join? xs ys = some s) : Contained (x.quotient y) (IsArray · s) := by
  unfold quotient
  split
  · rw [← hx.shape_eq, ← hy.shape_eq] at h
    obtain rfl := Option.some.inj h
    exact (contained_quotientOfNumbers _ _).map fun _ _ => isArray_number _
  · exact contained_divide .density hx hy h

/-- A power of values that can be broadcast is numeric, unless the arithmetic fails. -/
theorem contained_power (hx : x.IsArray xs) (hy : y.IsArray ys)
    (h : Tensor.join? xs ys = some s) : Contained (x.power .density y) IsNumeric := by
  have hbase : Contained (x.base .density) fun t => t.shape = xs := by
    unfold base
    split
    · exact hx.numeric.elim
    · exact hx.toTensor
  unfold power
  refine hbase.bind fun a ha => ?_
  dsimp only
  split
  · exact trivial
  · refine (hy.operand _).bind fun b hb => ?_
    refine (contained_zip _ (by rw [ha, hb, h])).bind fun t _ => ?_
    exact trivial
  · contradiction

end Broadcast

/-- A negation of a value is contained, and keeps the shape. -/
theorem IsArray.negate (h : x.IsArray s) : Contained x.negate (IsArray · s) := by
  have hneg := h.neg
  obtain ⟨hx, -⟩ := h
  cases x with
  | number n => exact hneg
  | word r w => exact hneg
  | array r t => exact hneg
  | object d => exact hx.elim

/-- Some numbers without dimensions can be stacked. -/
theorem contained_block {vs : List (Value α)} (rules : Rules) (hne : vs ≠ [])
    (hvs : ∀ v ∈ vs, v.IsArray []) (hvolume : Tensor.volume s = vs.length) :
    Contained (block rules vs s) (IsArray · s) := by
  unfold block
  refine (Contained.mapM fun v hv => (hvs v hv).toTensor).bind fun ts hts => ?_
  obtain ⟨hlength, hshapes⟩ := hts
  match ts, hlength, hshapes with
  | [], hlength, _ => exact absurd (List.length_eq_zero_iff.mp hlength.symm) hne
  | t :: rest, hlength, hshapes =>
    have ht : t.shape = [] := hshapes t List.mem_cons_self
    have hrest : ∀ u ∈ rest, u.shape = t.shape := by
      intro u hu
      rw [hshapes u (List.mem_cons_of_mem t hu), ht]
    unfold Tensor.stack?
    dsimp only
    rw [dif_pos hrest]
    dsimp only
    unfold Tensor.reshape?
    rw [dif_pos]
    · exact ⟨trivial, rfl⟩
    · show Tensor.volume s = (t :: rest).length * Tensor.volume t.shape
      rw [hvolume, ← hlength, ht]
      simp

end Value

/-! ## Expressions that fit -/

/-- A resolved expression whose literals are numbers and whose blocks are as large as their shapes
ask for. -/
inductive Expr.Resolved : Expr → Prop
  | literal {val : Datum} : val.isNumber = true → Resolved (.literal val)
  | ref (id : Identity) : Resolved (.ref id)
  | refArray {ids : List Identity} {shape : List Nat} :
      Tensor.volume shape = ids.length → Resolved (.refArray ids shape)
  | negate {e : Expr} : Resolved e → Resolved (.negate e)
  | add {a b : Expr} : Resolved a → Resolved b → Resolved (.add a b)
  | sub {a b : Expr} : Resolved a → Resolved b → Resolved (.sub a b)
  | mul {a b : Expr} : Resolved a → Resolved b → Resolved (.mul a b)
  | div {a b : Expr} : Resolved a → Resolved b → Resolved (.div a b)
  | pow {a b : Expr} : Resolved a → Resolved b → Resolved (.pow a b)
  | call {func : Datum} {arguments : List Expr} :
      (∀ e ∈ arguments, Resolved e) → Resolved (.call func arguments)

/-- The functions of all these names are known. -/
def Environment.Knows {α : Type} (env : Environment α) (names : List Datum) : Prop :=
  ∀ name ∈ names, ∃ f, name.text?.bind env.functions.get? = some f

/-- Functions are known by two lists together if they are known by each. -/
theorem Environment.knows_append {α : Type} {env : Environment α} {names others : List Datum} :
    env.Knows (names ++ others) ↔ env.Knows names ∧ env.Knows others :=
  List.forall_mem_append

namespace Expr

variable {α : Type} [Scalar α]

/-- Two operands that have values can be broadcast to a common shape. -/
def Compatible (env : Environment α) (a b : Expr) : Prop :=
  ∀ x y, a.eval env = .ok x → b.eval env = .ok y → ∃ s, Tensor.join? x.shape y.shape = some s

mutual

/-- Under the values that an environment gives, a slice selects at least one element and only
numbers without dimensions, the operands of an operator can be broadcast, and a function has a
number or an array of numbers as its value, or raises an error of the arithmetic. -/
def Fits (env : Environment α) : Expr → Prop
  | .refArray ids _ => ids ≠ [] ∧ ∀ id ∈ ids, ∀ v, env.lookup id = .ok v → v.shape = []
  | .negate val => Fits env val
  | .add a b | .sub a b | .mul a b | .div a b | .pow a b =>
    Fits env a ∧ Fits env b ∧ Compatible env a b
  | .call func arguments => FitsAll env arguments ∧
      ∀ f, func.text?.bind env.functions.get? = some f → ∀ xs, evalAll env arguments = .ok xs →
        Contained (f.meaning env.mode xs) Value.IsNumeric
  | .literal _ | .ref _ | .var _ | .colon | .range _ _ | .index _ _ | .raw _ | .rawList _ => True

/-- All expressions of a list fit. -/
def FitsAll (env : Environment α) : List Expr → Prop
  | [] => True
  | e :: rest => Fits env e ∧ FitsAll env rest

end

section Contained

variable {env : Environment α} {a b : Expr} {f : Value α → Value α → Except EvalError (Value α)}

/-- An operator is contained if its operands are, and if it is on numbers of a common shape. -/
theorem contained_binary (ha : Contained (a.eval env) Value.IsNumeric)
    (hb : Contained (b.eval env) Value.IsNumeric) (hcompatible : Compatible env a b)
    (hf : ∀ {x y : Value α} {s}, x.IsNumeric → y.IsNumeric →
      Tensor.join? x.shape y.shape = some s → Contained (f x y) Value.IsNumeric) :
    Contained (do f (← a.eval env) (← b.eval env)) Value.IsNumeric := by
  refine ha.bind_of_ok fun x hxeval hx => ?_
  refine hb.bind_of_ok fun y hyeval hy => ?_
  obtain ⟨s, hs⟩ := hcompatible x y hxeval hyeval
  exact hf hx hy hs

/-- The values of a slice can be stacked. -/
theorem contained_refArray {ids : List Identity} {shape : List Nat}
    (hvolume : Tensor.volume shape = ids.length) (hfits : (Expr.refArray ids shape).Fits env)
    (hlookup : ∀ id ∈ ids, Contained (env.lookup id) Value.IsNumeric) :
    Contained ((Expr.refArray ids shape).eval env) Value.IsNumeric := by
  obtain ⟨hne, hscalars⟩ := hfits
  unfold eval
  refine (Contained.mapM (P := fun v => v.IsArray []) fun id hid => ?_).bind fun vs hvs => ?_
  · refine (hlookup id hid).bind_of_ok fun v hv hnumeric => ?_
    refine (Value.IsArray.toTensor ⟨hnumeric, hscalars id hid v hv⟩).bind fun t ht => ?_
    exact Contained.pure ⟨trivial, ht⟩
  · have hvs' : vs ≠ [] := by
      rintro rfl
      exact hne (List.length_eq_zero_iff.mp hvs.1.symm)
    exact (Value.contained_block env.rules hvs' hvs.2 (hvolume.trans hvs.1.symm)).mono
      fun v hv => hv.numeric

/-- Arguments are contained if each of them is. -/
theorem contained_evalAll {P : Value α → Prop} {es : List Expr}
    (h : ∀ e ∈ es, e.Fits env → env.Knows e.calls → Contained (e.eval env) P)
    (hfits : FitsAll env es) (hcalls : env.Knows (callsOfAll es)) :
    Contained (evalAll env es) fun _ => True := by
  induction es with
  | nil => exact trivial
  | cons e es ih =>
    obtain ⟨hcallsFirst, hcallsRest⟩ := Environment.knows_append.mp hcalls
    refine (h e List.mem_cons_self hfits.1 hcallsFirst).bind fun v _ => ?_
    have hrest := ih (fun e' he' => h e' (List.mem_cons_of_mem e he')) hfits.2 hcallsRest
    exact hrest.bind fun vs _ => trivial

end Contained

/-- Where numbers are found for all identities and all functions are known, an expression that fits
has a number or an array of numbers as its value, or raises an error of the arithmetic. -/
theorem contained_eval {env : Environment α} (hrules : env.rules = .density) {e : Expr}
    (hresolved : e.Resolved) (hfits : e.Fits env)
    (hcalls : env.Knows e.calls)
    (hlookup : ∀ id, e.Mentions id → Contained (env.lookup id) Value.IsNumeric) :
    Contained (e.eval env) Value.IsNumeric := by
  -- The induction is on how the expression was resolved, so the forms that are only written have
  -- no case.
  induction hresolved with
  | @literal val hnumber =>
    cases val with
    | int n => exact trivial
    | real x => exact trivial
    | text _ | truth _ | nothing | list _ | record _ => cases hnumber
  | ref id => exact hlookup id .ref
  | refArray hvolume =>
    exact contained_refArray hvolume hfits fun id hid => hlookup id (.block hid)
  | negate _ ih =>
    refine (ih hfits hcalls fun id hid => hlookup id (.negate hid)).bind fun v hv => ?_
    exact (Value.IsArray.negate ⟨hv, rfl⟩).mono fun w hw => hw.numeric
  | add _ _ iha ihb =>
    obtain ⟨hcallsLeft, hcallsRight⟩ := Environment.knows_append.mp hcalls
    have hleft := iha hfits.1 hcallsLeft fun id hid => hlookup id (.addLeft hid)
    have hright := ihb hfits.2.1 hcallsRight fun id hid => hlookup id (.addRight hid)
    refine contained_binary hleft hright hfits.2.2 fun hx hy hs => ?_
    exact (Value.contained_add ⟨hx, rfl⟩ ⟨hy, rfl⟩ hs).mono fun w hw => hw.numeric
  | sub _ _ iha ihb =>
    obtain ⟨hcallsLeft, hcallsRight⟩ := Environment.knows_append.mp hcalls
    have hleft := iha hfits.1 hcallsLeft fun id hid => hlookup id (.subLeft hid)
    have hright := ihb hfits.2.1 hcallsRight fun id hid => hlookup id (.subRight hid)
    refine contained_binary hleft hright hfits.2.2 fun hx hy hs => ?_
    exact (Value.contained_sub ⟨hx, rfl⟩ ⟨hy, rfl⟩ hs).mono fun w hw => hw.numeric
  | mul _ _ iha ihb =>
    obtain ⟨hcallsLeft, hcallsRight⟩ := Environment.knows_append.mp hcalls
    have hleft := iha hfits.1 hcallsLeft fun id hid => hlookup id (.mulLeft hid)
    have hright := ihb hfits.2.1 hcallsRight fun id hid => hlookup id (.mulRight hid)
    refine contained_binary hleft hright hfits.2.2 fun hx hy hs => ?_
    exact (Value.contained_mul ⟨hx, rfl⟩ ⟨hy, rfl⟩ hs).mono fun w hw => hw.numeric
  | div _ _ iha ihb =>
    obtain ⟨hcallsLeft, hcallsRight⟩ := Environment.knows_append.mp hcalls
    have hleft := iha hfits.1 hcallsLeft fun id hid => hlookup id (.divLeft hid)
    have hright := ihb hfits.2.1 hcallsRight fun id hid => hlookup id (.divRight hid)
    refine contained_binary hleft hright hfits.2.2 fun hx hy hs => ?_
    exact (Value.contained_divide env.rules ⟨hx, rfl⟩ ⟨hy, rfl⟩ hs).mono fun w hw => hw.numeric
  | pow _ _ iha ihb =>
    obtain ⟨hcallsLeft, hcallsRight⟩ := Environment.knows_append.mp hcalls
    have hleft := iha hfits.1 hcallsLeft fun id hid => hlookup id (.powLeft hid)
    have hright := ihb hfits.2.1 hcallsRight fun id hid => hlookup id (.powRight hid)
    refine contained_binary hleft hright hfits.2.2 fun hx hy hs => ?_
    rw [hrules]
    exact Value.contained_power ⟨hx, rfl⟩ ⟨hy, rfl⟩ hs
  | @call func arguments _ ih =>
    obtain ⟨hfitsAll, hcall⟩ := hfits
    obtain ⟨⟨f, hf⟩, hcalls⟩ := List.forall_mem_cons.mp hcalls
    have hall : Contained (evalAll env arguments) fun _ => True :=
      contained_evalAll (fun e he hfits hcalls =>
        ih e he hfits hcalls fun id hid => hlookup id (.call he hid)) hfitsAll hcalls
    refine hall.bind_of_ok fun xs hxs _ => ?_
    unfold Environment.call
    rw [hf]
    exact hcall f hf xs hxs

end Expr

end BayesGraph
