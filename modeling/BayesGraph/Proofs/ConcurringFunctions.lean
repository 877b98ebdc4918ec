import BayesGraph.Proofs.Bounds
import BayesGraph.Proofs.Concurrence

/-!
# Functions that do not tell known numbers from computed ones

An operation is exact at some arguments if it concurs with itself on all values that stand for the
same numbers. All built-in functions are, where the opposites and the products of integers among
the arguments fit words (`Registry.exactAt_builtin`). Most of them convert their arguments to reals
first; the others keep integers integral, and the results are the integers that the operations on
scalars give.
-/

set_option autoImplicit false

namespace BayesGraph

open Outcome

/-- A function that can fail, applied to the entry of a scalar. -/
theorem Tensor.mapM_scalar {ε α β : Type} (f : α → Except ε β) (a : α) :
    (scalar a).mapM f = (f a).map scalar := by
  have hlist : (scalar a).entries.mapM f = (f a).map fun b => [b] := by
    change [a].mapM f = _
    rw [List.mapM_cons]
    cases f a <;> rfl
  unfold Tensor.mapM
  split
  · next ys hys =>
    rw [hlist, map_eq_ok] at hys
    obtain ⟨b, hb, rfl⟩ := hys
    rw [hb]
    rfl
  · next e he =>
    rw [hlist] at he
    cases hf : f a with
    | ok b =>
      rw [hf] at he
      cases he
    | error e' =>
      rw [hf] at he
      cases he
      rfl

/-- Values that stand for the same numbers as the arguments give results that stand for the same
numbers as the result. -/
def Operation.ExactAt {α : Type} [Scalar α] (f : Operation α) (mode : CallMode)
    (ws : List (Value α)) : Prop :=
  ∀ vs, List.Forall₂ Value.Renders vs ws → Concur Value.Renders (f mode vs) (f mode ws)

namespace Value

variable {α : Type}

/-- The value is no word without a sign. -/
def IsSigned (v : Value α) : Prop := ∀ r n, v ≠ .word r (.unsigned n)

/-- The opposite of an integer fits a word with a sign. -/
structure IsSmall (w : Value α) : Prop where
  signed : w.IsSigned
  opposite : ∀ n, w.integer? = some n → Word.fitsSigned (-n) = true

/-- The product of two integers fits a word with a sign. -/
def HaveSmallProduct (v w : Value α) : Prop :=
  ∀ m n, v.integer? = some m → w.integer? = some n → Word.fitsSigned (m * n) = true

/-- The opposites and the products of integers among the arguments fit words. -/
structure AreSmall (ws : List (Value α)) : Prop where
  each : ∀ w ∈ ws, w.IsSmall
  products : ws.Pairwise HaveSmallProduct

end Value

/-- The operation is exact where opposites and products of integers fit words. -/
def Operation.IsExact {α : Type} [Scalar α] (f : Operation α) : Prop :=
  ∀ mode ws, Value.AreSmall ws → f.ExactAt mode ws

namespace Value

section Exactness

variable {α : Type} {onInts : Int → Int → Int} {f : α → α → α} {v w : Value α}

/-- A known number is no word without a sign. -/
theorem isSigned_number (n : Number α) : IsSigned (.number n) := nofun

/-- A word with a sign is none without. -/
theorem isSigned_word (r : Rules) (n : Int64) : IsSigned (.word r (.signed n) : Value α) := by
  intro s m h
  cases h

/-- An array is no word. -/
theorem isSigned_array (r : Rules) (t : Tensor α) : IsSigned (.array r t) := nofun

/-- A word that is not without a sign has one. -/
theorem IsSigned.cases {r : Rules} {u : Word} (h : IsSigned (.word r u : Value α)) :
    ∃ n, u = .signed n := by
  cases u with
  | signed n => exact ⟨n, rfl⟩
  | unsigned n => exact absurd rfl (h r n)

variable [Scalar α]

/-- Words with a sign are combined exactly if the result fits. -/
theorem isExact_arithmetic (hv : v.IsSigned) (hw : w.IsSigned)
    (hfits : ∀ m n, v.integer? = some m → w.integer? = some n →
      Word.fitsSigned (onInts m n) = true) :
    IsExact (arithmetic onInts f v w) (Option.map₂ onInts v.integer? w.integer?) := by
  intro r u k hresult hk
  simp only [Option.map₂_eq_some_iff] at hk
  obtain ⟨m, n, hm, hn, rfl⟩ := hk
  have hfit := hfits m n hm hn
  cases arithmetic_eq_ok hresult with
  | wordInt =>
    cases hm
    cases hn
    obtain ⟨x, rfl⟩ := hv.cases
    exact Word.toInt_like_signed hfit
  | intWord =>
    cases hm
    cases hn
    obtain ⟨x, rfl⟩ := hw.cases
    exact Word.toInt_like_signed hfit
  | words _ _ hwords =>
    cases hm
    cases hn
    obtain ⟨x, rfl⟩ := hv.cases
    obtain ⟨y, rfl⟩ := hw.cases
    cases hwords
    exact Word.toInt_like_signed (m := x) hfit
  | combined _ hc =>
    obtain ⟨_, _, harray⟩ := exists_array_of_combine hc
    cases harray

/-- One of two computed integers is no other integer. -/
theorem isExact_of_choice (hchoice : ∀ m n, onInts m n = m ∨ onInts m n = n)
    (hv : v.isKnown = false) (hw : w.isKnown = false) :
    IsExact (arithmetic onInts f v w) (Option.map₂ onInts v.integer? w.integer?) := by
  intro r z k hresult hk
  simp only [Option.map₂_eq_some_iff] at hk
  obtain ⟨m, n, hm, hn, rfl⟩ := hk
  cases arithmetic_eq_ok hresult with
  | wordInt => cases hw
  | intWord => cases hv
  | @words _ _ p q _ hword =>
    cases hm
    cases hn
    obtain ⟨hformat, rfl⟩ := Word.combine?_eq_some hword
    refine Word.toInt_like ?_
    rcases hchoice p.toInt q.toInt with h | h <;> rw [h]
    · exact p.holds_toInt
    · rw [← hformat]
      exact q.holds_toInt
  | combined _ hc =>
    obtain ⟨_, _, harray⟩ := exists_array_of_combine hc
    cases harray

end Exactness

end Value

namespace Builtin

open Value

variable {α : Type} [Scalar α] {v w x x' y y' : Value α} {a b : α}

/-! ## Integers that functions compute with -/

/-- A word with a sign fits one. -/
theorem fitsSigned_toInt (n : Int64) : Word.fitsSigned n.toInt = true :=
  Word.holds_toInt (.signed n)

/-- A number as a function computes with it: an integer is a word, and a real is a scalar. -/
theorem computed_cases (h : w.Reads a) :
    (∃ u : Word, a = Scalar.ofInt u.toInt ∧ w.integer? = some u.toInt ∧
      computed .density w = .ok (.word .density u)) ∨
    (w.integer? = none ∧ computed .density w = .ok (.scalar a)) ∨
    computed .density w = .error .overflow := by
  cases h with
  | int n =>
    change (∃ u : Word, _ ∧ _ ∧ computedInt .density n = _) ∨ (_ ∧ computedInt .density n = _) ∨
      computedInt .density n = _
    unfold computedInt Word.signed?
    by_cases hfits : Word.fitsSigned n = true
    · have hn : (Word.signed (Int64.ofInt n)).toInt = n := Word.toInt_like_signed (m := 0) hfits
      refine Or.inl ⟨.signed (Int64.ofInt n), by rw [hn], congrArg some hn.symm, ?_⟩
      simp only [if_pos hfits]
    · refine Or.inr (Or.inr ?_)
      simp only [if_neg hfits]
  | real a | scalar a => exact Or.inr (Or.inl ⟨rfl, rfl⟩)
  | word u => exact Or.inl ⟨u, rfl, rfl, rfl⟩

/-- What is computed is a word or an array of a density. -/
theorem computed_eq_ok (h : computed .density v = .ok w) :
    (∃ u, w = .word .density u) ∨ ∃ t, w = .array .density t := by
  match v with
  | .number (.int n) =>
    change computedInt .density n = _ at h
    unfold computedInt at h
    dsimp only at h
    split at h <;> cases h
    exact Or.inl ⟨_, rfl⟩
  | .number (.real x) =>
    cases h
    exact Or.inr ⟨_, rfl⟩
  | .word r u =>
    cases h
    exact Or.inl ⟨_, rfl⟩
  | .array r t =>
    cases h
    exact Or.inr ⟨_, rfl⟩
  | .object d =>
    obtain ⟨t, -, ht⟩ := bind_eq_ok.mp h
    cases ht
    exact Or.inr ⟨_, rfl⟩

/-- A computed number is the same number. -/
theorem reads_of_computed (h : v.Reads a) (hw : computed .density v = .ok w) : w.Reads a := by
  obtain ⟨u, rfl, -, hc⟩ | ⟨-, hc⟩ | hc := computed_cases h
  · cases hc.symm.trans hw
    exact .word u
  · cases hc.symm.trans hw
    exact .scalar a
  · cases hc.symm.trans hw

/-- What is computed is not known. -/
theorem isKnown_of_computed (h : computed .density v = .ok w) : w.isKnown = false := by
  obtain ⟨u, rfl⟩ | ⟨t, rfl⟩ := computed_eq_ok h
  · rfl
  · rfl

/-- What is computed for a density is under its rules. -/
theorem isDense_computed (h : computed .density v = .ok w) : w.IsDense := by
  obtain ⟨u, rfl⟩ | ⟨t, rfl⟩ := computed_eq_ok h
  · exact fun _ => rfl
  · exact isDense_array t

/-- Values that stand for the same numbers still do when they are computed with. -/
theorem concur_computed (h : Renders v w) :
    Concur Renders (computed .density v) (computed .density w) := by
  cases h with
  | same h => exact .of_eq rfl fun u hu => .same (isDense_computed hu)
  | reads hr =>
    change Concur Renders (.ok (.scalar _)) _
    obtain ⟨u, rfl, -, h⟩ | ⟨-, h⟩ | h := computed_cases hr <;> rw [h]
    · exact .ok (.reads (.word _))
    · exact .ok (.reads (.scalar _))
    · exact .right rfl _

/-- What is computed from a value without an unsigned word has none, and the same integer. -/
theorem integer?_of_computed (h : computed .density v = .ok w) (hsigned : v.IsSigned) :
    w.IsSigned ∧ w.integer? = v.integer? := by
  match v with
  | .number (.int n) =>
    change computedInt .density n = .ok w at h
    unfold computedInt Word.signed? at h
    by_cases hfits : Word.fitsSigned n = true
    · simp only [if_pos hfits, Except.ok.injEq] at h
      subst h
      exact ⟨isSigned_word _ _, congrArg some (Word.toInt_like_signed (m := 0) hfits)⟩
    · simp only [if_neg hfits] at h
      cases h
  | .number (.real x) =>
    cases h
    exact ⟨isSigned_array _ _, rfl⟩
  | .word r u =>
    cases h
    obtain ⟨n, rfl⟩ := hsigned.cases
    exact ⟨isSigned_word _ _, rfl⟩
  | .array r t =>
    cases h
    exact ⟨isSigned_array _ _, rfl⟩
  | .object d =>
    obtain ⟨t, -, ht⟩ := bind_eq_ok.mp h
    cases ht
    exact ⟨isSigned_array _ _, rfl⟩

/-! ## Numbers of arguments -/

section Arguments

variable {f : Value α → Except EvalError (Value α)}

/-- An argument of the wrong kind is an error that is no domain error. -/
theorem concur_wrongKind {x : Except EvalError (Value α)} :
    Concur Renders (.error .wrongKind) x := .left rfl x

/-- A function of one argument is exact if it concurs at values that stand for the same numbers. -/
theorem exact_unary (h : ∀ v w, w.IsSmall → Renders v w → Concur Renders (f v) (f w)) :
    (unary f).IsExact := by
  intro mode ws hsmall vs hargs
  obtain _ | ⟨hx, _ | ⟨_, _⟩⟩ := hargs
  · exact concur_wrongKind
  · exact h _ _ (hsmall.each _ List.mem_cons_self) hx
  · exact concur_wrongKind

/-- An elementwise function is exact if it concurs at values that stand for the same numbers. -/
theorem exact_entrywise (h : ∀ v w, w.IsSmall → Renders v w → Concur Renders (f v) (f w)) :
    (entrywise .density f).IsExact := by
  intro mode ws hsmall vs hargs
  obtain _ | ⟨hx, _ | ⟨_, _ | ⟨_, _⟩⟩⟩ := hargs
  · exact concur_wrongKind
  · exact h _ _ (hsmall.each _ List.mem_cons_self) hx
  · exact concur_wrongKind
  · exact concur_wrongKind

/-- A function of two arguments is exact if it concurs at values that stand for the same numbers. -/
theorem exact_binary {f : Value α → Value α → Except EvalError (Value α)}
    (h : ∀ v w v' w', Renders v v' → Renders w w' → Concur Renders (f v w) (f v' w')) :
    (binary f).IsExact := by
  intro mode ws hsmall vs hargs
  obtain _ | ⟨hx, _ | ⟨hy, _ | ⟨_, _⟩⟩⟩ := hargs
  · exact concur_wrongKind
  · exact concur_wrongKind
  · exact h _ _ _ _ hx hy
  · exact concur_wrongKind

/-- Whether an argument is absent does not depend on its form. -/
theorem isNothing_eq (h : Renders v w) : v.isNothing = w.isNothing := by
  cases h with
  | same _ => rfl
  | reads h => cases h <;> rfl

/-- Whether all arguments are absent does not depend on their form. -/
theorem all_isNothing_of_renders {vs ws : List (Value α)} (h : List.Forall₂ Renders vs ws) :
    vs.all Value.isNothing = ws.all Value.isNothing := by
  induction h with
  | nil => rfl
  | cons hvw _ ih => rw [List.all_cons, List.all_cons, isNothing_eq hvw, ih]

/-- The number of a dimension has to be known. -/
theorem concur_axis? (h : Renders v w) : Concur (· = ·) (axis? v) (axis? w) := by
  cases h with
  | same _ => exact .refl _
  | reads _ => exact .left rfl _

/-- A function along an axis is exact if it concurs for each of them. -/
theorem exact_withAxis {f : Option Int → Value α → Except EvalError (Value α)}
    (h : ∀ k v w, w.IsSmall → Renders v w → Concur Renders (f k v) (f k w)) :
    (withAxis f).IsExact := by
  intro mode ws hsmall vs hargs
  obtain _ | ⟨hx, _ | ⟨haxis, hoptions⟩⟩ := hargs
  · exact concur_wrongKind
  · exact h none _ _ (hsmall.each _ List.mem_cons_self) hx
  · refine .bind_eq (concur_axis? haxis) fun k => ?_
    rw [hoptions.length_eq, all_isNothing_of_renders hoptions]
    split
    · exact h k _ _ (hsmall.each _ List.mem_cons_self) hx
    · exact concur_wrongKind

end Arguments

/-! ## Functions of reals -/

/-- An elementwise function of reals is exact. -/
theorem exact_elementwise (f : α → α) : (elementwise .density f).IsExact :=
  exact_entrywise fun _ _ _ h => h.lift f

/-- A function of reals that converts its argument is exact. -/
theorem exact_converting (f : α → α) : (converting .density f).IsExact := by
  refine exact_entrywise fun v w _ h => ?_
  cases h with
  | same h =>
    refine .of_eq rfl fun u hu => .same ?_
    cases v with
    | number k =>
      obtain ⟨b, -, hb⟩ := bind_eq_ok.mp hu
      cases hb
      exact isDense_array _
    | word _ _ | array _ _ | object _ =>
      obtain ⟨t, -, ht⟩ := bind_eq_ok.mp hu
      cases ht
      exact isDense_array _
  | reads h =>
    change Concur Renders (.ok (.scalar (Rules.density.unary f _))) _
    cases h with
    | int n =>
      change Concur Renders _ (do
        let b ← (ofInt n : Except EvalError α)
        return .array .density (.scalar (Rules.density.unary f b)))
      rcases ofInt_cases (α := α) n with h | h <;> rw [h]
      · exact .ok (.same (isDense_array _))
      · exact .right rfl _
    | real _ | word _ | scalar _ => exact .ok (.same (isDense_array _))

/-- A function that takes only reals is exact. -/
theorem exact_realsOnly (sized : Bool) (f : α → α) :
    (realsOnly .density sized f).IsExact := by
  refine exact_entrywise fun v w _ h => ?_
  cases h with
  | same h =>
    refine .of_eq rfl fun u hu => .same ?_
    match v with
    | .number (.int n) => cases hu
    | .word _ _ => cases hu
    | .number (.real _) | .array _ _ | .object _ =>
      obtain ⟨t, -, ht⟩ := bind_eq_ok.mp hu
      cases ht
      exact isDense_array _
  | reads h =>
    cases h with
    | int n =>
      refine .right (e := if sized && !Word.fitsSigned n then .overflow else .wrongKind) ?_ _
      split <;> rfl
    | word _ => exact .right rfl _
    | real _ | scalar _ => exact .ok (.same (isDense_array _))

/-! ## Functions of integers and reals -/

/-- The integral side of a function agrees with the side of reals, and fits words. -/
theorem concur_integral {onInt : Int → Int} {onReal : α → α}
    (hagrees : ∀ n, Scalar.ofInt (onInt n) = onReal (Scalar.ofInt n)) (hsigned : w.IsSigned)
    (hfits : ∀ n, w.integer? = some n → Word.fitsSigned n = true →
      Word.fitsSigned (onInt n) = true)
    (h : Renders v w) :
    Concur Renders (integral .density onInt onReal v) (integral .density onInt onReal w) := by
  cases h with
  | same h =>
    refine .of_eq rfl fun u hu => .same ?_
    unfold integral at hu
    rw [bind_eq_ok] at hu
    obtain ⟨c, hc, hu⟩ := hu
    have hdense := isDense_computed hc
    split at hu
    · cases hu
      exact isDense_number _
    · cases hu
      exact fun _ => hdense rfl
    · obtain ⟨_, -, ht⟩ := bind_eq_ok.mp hu
      cases ht
      exact isDense_array _
  | reads h =>
    change Concur Renders (.ok (.scalar (onReal _))) _
    unfold integral
    obtain ⟨u, rfl, hn, hc⟩ | ⟨-, hc⟩ | hc := computed_cases h <;> rw [hc]
    · obtain ⟨n, rfl⟩ := ((integer?_of_computed hc hsigned).1).cases
      have hword : ((Word.signed n).like (onInt n.toInt)).toInt = onInt n.toInt :=
        Word.toInt_like_signed (m := n) (hfits _ hn (fitsSigned_toInt n))
      refine .ok (.reads ?_)
      have hreads := Reads.word (α := α) ((Word.signed n).like (onInt n.toInt))
      rw [hword, hagrees] at hreads
      exact hreads
    · exact .ok (.same (isDense_array _))
    · exact .right rfl _

/-- The absolute value is exact. -/
theorem exact_abs [ExactIntegers α] : (entrywise .density
    (integral .density (fun n => (n.natAbs : Int)) (Scalar.abs : α → α))).IsExact := by
  refine exact_entrywise fun v w hsmall h =>
    concur_integral ExactIntegers.abs_ofInt hsmall.signed (fun n hn hfits => ?_) h
  have hopposite := hsmall.opposite n hn
  rw [Word.fitsSigned_iff] at *
  omega

/-- The integral part is exact. -/
theorem exact_trunc [ExactIntegers α] :
    (entrywise .density (integral .density id (Scalar.trunc : α → α))).IsExact :=
  exact_entrywise fun _ _ hsmall h =>
    concur_integral ExactIntegers.trunc_ofInt hsmall.signed (fun _ _ hfits => hfits) h

/-- An operation on two values computes with both first. -/
theorem pairwise_eq (onInts : Int → Int → Int) (onReals : α → α → α) (x y : Value α) :
    pairwise .density onInts onReals x y = (do
      let a ← computed .density x
      let b ← computed .density y
      arithmetic onInts onReals a b) := rfl

/-- An operation on two values entry by entry. -/
theorem concur_pairwise [ExactIntegers α] {onInts : Int → Int → Int} {onReals : α → α → α}
    (hagrees : Extends onInts onReals) (hx : Renders x x') (hy : Renders y y')
    (hexact : ∀ a b, computed .density x' = .ok a → computed .density y' = .ok b →
      IsExact (arithmetic onInts onReals a b) (Option.map₂ onInts a.integer? b.integer?)) :
    Concur Renders (pairwise .density onInts onReals x y)
      (pairwise .density onInts onReals x' y') := by
  rw [pairwise_eq, pairwise_eq]
  exact (concur_computed hx).bind fun _ a _ ha hxa =>
    (concur_computed hy).bind fun _ b _ hb hyb => hxa.arithmetic hagrees hyb (hexact a b ha hb)

/-- An operation that chooses one of two numbers. -/
theorem concur_choice [ExactIntegers α] {onInts : Int → Int → Int} {onReals : α → α → α}
    (hagrees : Extends onInts onReals) (hchoice : ∀ m n, onInts m n = m ∨ onInts m n = n)
    (hx : Renders x x') (hy : Renders y y') :
    Concur Renders (pairwise .density onInts onReals x y)
      (pairwise .density onInts onReals x' y') :=
  concur_pairwise hagrees hx hy fun _ _ ha hb =>
    isExact_of_choice hchoice (isKnown_of_computed ha) (isKnown_of_computed hb)

/-- An operation that chooses one of two numbers gives the number that it chooses among the
scalars. -/
theorem reads_of_choice [ExactIntegers α] {onInts : Int → Int → Int} {onReals : α → α → α}
    (hagrees : Extends onInts onReals) (hchoice : ∀ m n, onInts m n = m ∨ onInts m n = n)
    (hx : x.Reads a) (hy : y.Reads b) (h : pairwise .density onInts onReals x y = .ok w) :
    w.Reads (onReals a b) := by
  rw [pairwise_eq] at h
  simp only [bind_eq_ok] at h
  obtain ⟨u, hu, v, hv, h⟩ := h
  rcases gives_arithmetic hagrees (reads_of_computed hx hu) (reads_of_computed hy hv)
    (isExact_of_choice hchoice (isKnown_of_computed hu) (isKnown_of_computed hv)) with
    ⟨w', hw', hreads⟩ | herror
  · obtain rfl : w = w' := Except.ok.inj (h.symm.trans hw')
    exact hreads
  · cases h.symm.trans herror

/-! ## Reductions -/

/-- What an array is reduced to is computed under the rules of a density. -/
theorem isDense_reduceTensor {f : List α → α} {axis : Option Int}
    {t : Tensor α} (h : reduceTensor .density f axis t = .ok v) : v.IsDense := by
  cases axis with
  | none =>
    cases h
    exact isDense_array _
  | some k =>
    obtain ⟨_, -, hk⟩ := bind_eq_ok.mp h
    cases hk
    exact isDense_array _

/-- The dimensions of a number can not be reduced. -/
theorem dimension_zero (k : Int) : dimension .density 0 k = .error .badValue := by
  unfold dimension
  exact dif_neg (by split <;> omega)

/-- A reduction of a number to itself. -/
theorem reduceValue_scalar [ExactIntegers α] {f : List α → α} (hf : ∀ a, f [a] = a)
    (axis : Option Int) (a : α) : reduceValue .density f axis (.scalar a) =
      if spansAll .density axis then .ok (.scalar a) else .error .badValue := by
  cases axis with
  | none =>
    change Except.ok (Value.scalar (f [a])) = _
    rw [hf]
    rfl
  | some k =>
    change (do
      let k ← dimension .density 0 k
      return Value.array .density ((Tensor.scalar a).reduce (settled .density f) k)) = _
    rw [dimension_zero]
    rfl

/-- An integer is its own reduction. -/
theorem reduceValue_word {f : List α → α} {axis : Option Int} {u : Word}
    (h : computed .density w = .ok (.word .density u)) : reduceValue .density f axis w =
      if spansAll .density axis then .ok (.word .density u) else .error .badValue := by
  unfold reduceValue
  simp only [density_join, h, ok_bind]
  rfl

/-- Reductions of values that stand for the same numbers concur. -/
theorem concur_reduceValue [ExactIntegers α] {f : List α → α} (hf : ∀ a, f [a] = a)
    {axis : Option Int} (h : Renders v w) :
    Concur Renders (reduceValue .density f axis v) (reduceValue .density f axis w) := by
  cases h with
  | same h =>
    refine .of_eq rfl fun u hu => .same ?_
    simp only [reduceValue, density_join] at hu
    rw [bind_eq_ok] at hu
    obtain ⟨c, hc, hu⟩ := hu
    split at hu
    · split at hu
      · exact isDense_reduceTensor hu
      · exact isDense_reduceTensor hu
    · split at hu
      · cases hu
        exact isDense_computed hc
      · cases hu
  | @reads _ a h =>
    obtain ⟨u, rfl, -, hc⟩ | ⟨-, hc⟩ | hc := computed_cases h
    · rw [reduceValue_scalar hf, reduceValue_word hc]
      split
      · exact .ok (.reads (.word _))
      · exact .error _
    · have hsame : reduceValue .density f axis w = reduceValue .density f axis (.scalar a) := by
        unfold reduceValue
        simp only [density_join, hc]
        rfl
      rw [hsame]
      refine .of_eq rfl fun u hu => .same ?_
      rw [reduceValue_scalar hf] at hu
      split at hu <;> cases hu
      exact isDense_array _
    · have herror : reduceValue .density f axis w = .error .overflow := by
        unfold reduceValue
        simp only [density_join, hc]
        rfl
      rw [herror]
      exact .right rfl _

/-- Reductions of reals that stand for the same numbers concur. -/
theorem concur_realReduction {f : List α → α} {axis : Option Int}
    (h : Renders v w) :
    Concur Renders (realReduction .density f axis v) (realReduction .density f axis w) := by
  have hreduce {z : Value α} {a : α} (hz : z.Reads a) :
      realReduction .density f axis z = (do
        reduceTensor .density f axis (← z.operand .density)) := by
    unfold realReduction
    rw [density_join]
    cases hz <;> rfl
  cases h with
  | same h =>
    refine .of_eq rfl fun u hu => .same ?_
    unfold realReduction at hu
    rw [density_join] at hu
    cases v with
    | number _ | word _ _ | array _ _ | object _ =>
      obtain ⟨_, -, hu⟩ := bind_eq_ok.mp hu
      exact isDense_reduceTensor hu
  | reads h =>
    rw [hreduce (.scalar _), hreduce h]
    exact .bind_eq (Renders.reads h).operand fun t =>
      .of_eq rfl fun u hu => .same (isDense_reduceTensor hu)

/-- The standard deviation is exact. -/
theorem exact_deviation : (deviation .density : Operation α).IsExact := by
  intro mode ws _ vs hargs
  obtain _ | ⟨hx, _ | ⟨_, _⟩⟩ := hargs
  · exact concur_wrongKind
  · exact concur_realReduction hx
  · exact concur_wrongKind

/-- The sum of one scalar is the scalar. -/
theorem sum_single (a : α) : Scalar.sum [a] = a := rfl

/-- The inner product is exact. -/
theorem exact_innerProduct [ExactIntegers α] : (innerProduct .density : Operation α).IsExact := by
  intro mode ws hsmall vs hargs
  obtain _ | ⟨hx, _ | ⟨hy, _ | ⟨_, _⟩⟩⟩ := hargs
  · exact concur_wrongKind
  · exact concur_wrongKind
  · have hx' := (hsmall.each _ List.mem_cons_self).signed
    have hy' := (hsmall.each _ (List.mem_cons_of_mem _ List.mem_cons_self)).signed
    have hproduct := (List.pairwise_cons.mp hsmall.products).1 _ List.mem_cons_self
    refine (concur_pairwise extends_mul hx hy fun a b ha hb => ?_).bind fun _ _ _ _ hu =>
      concur_reduceValue sum_single hu
    obtain ⟨ha', hm⟩ := integer?_of_computed ha hx'
    obtain ⟨hb', hn⟩ := integer?_of_computed hb hy'
    refine isExact_arithmetic ha' hb' ?_
    rw [hm, hn]
    exact hproduct
  · exact concur_wrongKind

/-- The larger or the smaller one of two numbers, or an extreme one of many. -/
theorem exact_extreme [ExactIntegers α] {onInts : Int → Int → Int} {onReals : α → α → α}
    {onList : List α → α} (hagrees : Extends onInts onReals)
    (hchoice : ∀ m n, onInts m n = m ∨ onInts m n = n) (hsingle : ∀ a, onList [a] = a) :
    (extreme .density onInts onReals onList).IsExact := by
  intro mode ws hsmall vs hargs
  obtain _ | ⟨hx, hargs⟩ := hargs
  · exact concur_wrongKind
  obtain _ | ⟨hy, hargs⟩ := hargs
  · exact concur_reduceValue hsingle hx
  have hpair := concur_choice hagrees hchoice hx hy
  obtain _ | ⟨_, _ | ⟨_, _⟩⟩ := hargs
  · exact hpair
  · exact hpair.bind fun _ _ _ _ _ => concur_wrongKind
  · exact concur_wrongKind

/-! ## Rounding -/

/-- A computed real is rounded. -/
theorem roundValue_scalar [ExactIntegers α] (decimals : Int) (a : α) :
    roundValue .density decimals (.scalar a) = (roundDense decimals a).map Value.scalar := by
  have hround : roundValue .density decimals (.scalar a) = (do
      let rounded ← (Tensor.scalar a).mapM fun e => roundDense decimals (Scalar.flush e)
      return Value.array .density (rounded.map Scalar.flush)) := rfl
  rw [hround, Tensor.mapM_scalar, ExactScalar.flush_eq]
  cases roundDense decimals a with
  | ok b =>
    change Except.ok (Value.scalar (Scalar.flush b)) = _
    rw [ExactScalar.flush_eq]
    rfl
  | error e => rfl

/-- Rounding an integer gives the integer, if it is not rounded to tens. -/
theorem roundValue_word {decimals : Int} {u : Word}
    (h : computed .density w = .ok (.word .density u)) : roundValue .density decimals w =
      if 0 ≤ decimals then .ok (.word .density u) else .error .unsupported := by
  unfold roundValue
  simp only [h, ok_bind]
  rfl

/-- Rounding concurs at values that stand for the same number. -/
theorem concur_roundValue [ExactIntegers α] {decimals : Int} (h : Renders v w) :
    Concur Renders (roundValue .density decimals v) (roundValue .density decimals w) := by
  cases h with
  | same h =>
    refine .of_eq rfl fun u hu => .same ?_
    unfold roundValue at hu
    rw [bind_eq_ok] at hu
    obtain ⟨c, hc, hu⟩ := hu
    obtain ⟨n, rfl⟩ | ⟨t, rfl⟩ := computed_eq_ok hc
    · dsimp only at hu
      split at hu
      · cases hu
        exact fun _ => rfl
      · cases hu
    · obtain ⟨_, -, ht⟩ := bind_eq_ok.mp hu
      cases ht
      exact isDense_array _
  | @reads _ a h =>
    obtain ⟨u, rfl, -, hc⟩ | ⟨-, hc⟩ | hc := computed_cases h
    · rw [roundValue_word hc, roundValue_scalar]
      split
      · next hnonneg =>
        -- More decimals than a double has change nothing for a word, where a real fails.
        by_cases hlarge : decimals ≤ 308
        · rw [ExactIntegers.roundDense_ofInt _ _ hnonneg hlarge]
          exact .ok (.reads (.word _))
        · have hoverflow : roundDense decimals (Scalar.ofInt u.toInt : α) =
              .error .overflow := by
            unfold roundDense
            simp only [if_neg (show ¬ decimals = 0 by omega),
              if_neg (show ¬ decimals < 0 by omega), if_pos (show 308 < decimals by omega)]
          rw [hoverflow]
          exact .left rfl _
      · exact .right rfl _
    · have hsame : roundValue .density decimals w = roundValue .density decimals (.scalar a) := by
        unfold roundValue
        rw [hc]
        rfl
      rw [hsame, roundValue_scalar]
      refine .of_eq rfl fun u hu => .same ?_
      obtain ⟨_, -, rfl⟩ := map_eq_ok.mp hu
      exact isDense_array _
    · have herror : roundValue .density decimals w = .error .overflow := by
        unfold roundValue
        rw [hc]
        rfl
      rw [herror]
      exact .right rfl _

/-- The number of decimals has to be known. -/
theorem concur_decimalsOf (h : Renders v w) :
    Concur (· = ·) (decimalsOf .density v) (decimalsOf .density w) := by
  cases h with
  | same _ => exact .refl _
  | reads _ => exact .left rfl _

/-- Rounded values are stored alike if they stand for the same number. -/
theorem concur_storeRounded (hx : Renders x x') (h : Renders v w) :
    Concur Renders (storeRounded .density x v) (storeRounded .density x' w) := by
  cases hx with
  | same _ =>
    cases x with
    | object d =>
      cases d with
      | nothing => exact .ok h
      | _ => exact .left rfl _
    | _ => exact .left rfl _
  | reads _ => exact .left rfl _

/-- Rounding is exact. -/
theorem exact_rounding [ExactIntegers α] : (rounding .density : Operation α).IsExact := by
  intro mode ws hsmall vs hargs
  obtain _ | ⟨hx, hargs⟩ := hargs
  · exact concur_wrongKind
  have hsigned := (hsmall.each _ List.mem_cons_self).signed
  obtain _ | ⟨hd, _ | ⟨hp, _ | ⟨_, _⟩⟩⟩ := hargs
  · simp only [rounding, density_join]
    exact concur_roundValue hx
  · simp only [rounding, density_join]
    exact .bind_eq (concur_decimalsOf hd) fun n => concur_roundValue hx
  · simp only [rounding, density_join]
    exact .bind_eq (concur_decimalsOf hd) fun n =>
      (concur_roundValue hx).bind fun _ _ _ _ h => concur_storeRounded hp h
  · exact concur_wrongKind

/-! ## All functions -/

/-- A function of the opposite is exact. -/
theorem exact_cloglog [ExactIntegers α] (f : α → α) :
    (unary fun x => do (← x.negate).lift .density f).IsExact := by
  refine exact_unary fun v w hsmall h => (h.negate fun r u n hu hn => ?_).bind
    fun _ _ _ _ h => h.lift f
  obtain ⟨k, hk, rfl⟩ := Option.map_eq_some_iff.mp hn
  match w with
  | .number (.int _) => cases hu
  | .word s x =>
    obtain ⟨x, rfl⟩ := hsmall.signed.cases
    cases hk
    cases hu
    exact Word.toInt_like_signed (m := x) (hsmall.opposite _ rfl)
  | .number (.real _) | .array _ _ | .object _ => cases hk

/-- A function of the successor is exact. -/
theorem exact_logfact [ExactIntegers α] (f : α → α) :
    (unary fun x => do (← x.add (.real one)).lift .density f).IsExact := by
  refine exact_unary fun v w _ h => (h.add (.same (isDense_number _)) fun r u n _ hn => ?_).bind
    fun _ _ _ _ h => h.lift f
  rw [show (Value.number (.real one) : Value α).integer? = none from rfl,
    Option.map₂_none_right] at hn
  cases hn

/-- All built-in functions are exact. -/
theorem exact_operations [ExactIntegers α] :
    ∀ e ∈ operations (α := α) .density, Operation.IsExact e.2 := by
  have hmax (a : α) : maximum [a] = a := Scalar.extreme_single _ a
  have hmin (a : α) : minimum [a] = a := Scalar.extreme_single _ a
  simp only [operations, List.forall_mem_cons, List.not_mem_nil, false_implies, implies_true]
  -- in the order of their names
  exact ⟨exact_abs,
    exact_cloglog _,
    exact_elementwise _,
    exact_binary fun _ _ _ _ h h' => h.equals h',
    exact_elementwise _,
    exact_unary fun _ _ _ h => h.lift _,
    exact_converting _,
    exact_innerProduct,
    exact_elementwise _,
    exact_logfact _,
    exact_converting _,
    exact_elementwise _,
    exact_converting _,
    exact_extreme ExactIntegers.max_ofInt (fun m n => max_choice m n) hmax,
    exact_withAxis fun _ _ _ _ h => concur_realReduction h,
    exact_extreme ExactIntegers.min_ofInt (fun m n => min_choice m n) hmin,
    exact_realsOnly _ _,
    exact_binary fun _ _ _ _ h h' => h.power h',
    exact_realsOnly _ _,
    exact_withAxis fun _ _ _ _ h => concur_reduceValue (fun _ => rfl) h,
    exact_rounding,
    exact_deviation,
    exact_elementwise _,
    exact_elementwise _,
    exact_unary fun _ _ _ h => h.atLeast (.same (isDense_number _)),
    exact_withAxis fun _ _ _ _ h => concur_reduceValue sum_single h,
    exact_trunc, trivial⟩

end Builtin

/-- The built-in functions are exact. -/
theorem Registry.exact_builtin {α : Type} [Scalar α] [ExactIntegers α] {name : String}
    {f : Callable α} (h : (builtin : Registry α).functions.get? name = some f) :
    f.meaning.IsExact := by
  obtain ⟨e, he, rfl⟩ := Table.exists_of_get?_ofList_map h
  exact Builtin.exact_operations e he

end BayesGraph
