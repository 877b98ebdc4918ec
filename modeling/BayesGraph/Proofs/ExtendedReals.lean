import BayesGraph.Proofs.ExactReals

/-!
# Extended reals with a NaN as scalars

Beside the reals there are the two infinities and one object that is not a number, and the functions
of an evaluation treat these as machine numbers do: opposite infinities have no sum, the logarithm
of zero is the infinity below all numbers, that of a negative number is not a number, and a
comparison with what is not a number fails. Reals are not rounded, and zero has no sign; a quotient
by zero has the sign of its numerator.

Addition is commutative and associative: a sum with both infinities is not a number, whatever the
order of its terms.
-/

set_option autoImplicit false

namespace BayesGraph

/-- A real, an infinity, or not a number. -/
inductive Extended where
  | nan
  | bottom
  | real (x : ℝ)
  | top

namespace Extended

open Classical

/-- The infinity of a sign, of which zero has none. -/
noncomputable def infinity (x : ℝ) : Extended :=
  if 0 < x then top else if x < 0 then bottom else nan

/-- A function of the reals with its limits at the infinities. -/
def extend (f : ℝ → Extended) (atBottom atTop : Extended) : Extended → Extended
  | nan => nan
  | bottom => atBottom
  | real x => f x
  | top => atTop

/-- The sum; opposite infinities have none. -/
noncomputable def add : Extended → Extended → Extended
  | nan, _ | _, nan => nan
  | bottom, top | top, bottom => nan
  | bottom, _ | _, bottom => bottom
  | top, _ | _, top => top
  | real x, real y => real (x + y)

/-- The sign reversed. -/
noncomputable def neg : Extended → Extended := extend (fun x => real (-x)) top bottom

/-- The sign of a number that is not zero, as a real. -/
noncomputable def sign : Extended → ℝ
  | nan => 0
  | bottom => -1
  | real x => SignType.sign x
  | top => 1

/-- The product; zero and an infinity have none. -/
noncomputable def mul : Extended → Extended → Extended
  | nan, _ | _, nan => nan
  | real x, real y => real (x * y)
  | x, y => infinity (x.sign * y.sign)

/-- The quotient; two zeros and two infinities have none. -/
noncomputable def div : Extended → Extended → Extended
  | nan, _ | _, nan => nan
  | real x, real y => if y = 0 then infinity x else real (x / y)
  | real _, _ => real 0
  | x, real y => infinity (x.sign * if y < 0 then -1 else 1)
  | _, _ => nan

/-- Does a relation hold between numbers, infinities being below and above all reals? -/
noncomputable def compare (onReals : ℝ → ℝ → Prop) (self below : Bool) : Extended → Extended → Bool
  | nan, _ | _, nan => false
  | real x, real y => decide (onReals x y)
  | bottom, bottom | top, top => self
  | bottom, _ | _, top => below
  | top, _ | _, bottom => false

/-- The logarithm of a real. -/
noncomputable def logReal (x : ℝ) : Extended :=
  if 0 < x then real (Real.log x) else if x = 0 then bottom else nan

/-- The power of a real with a real exponent. -/
noncomputable def powReal (x y : ℝ) : Extended :=
  if 0 < x ∨ y = 0 then real (x ^ y)
  else if x = 0 then (if 0 < y then real 0 else top)
  else if y = ⌊y⌋ then real (x ^ ⌊y⌋) else nan

/-- The power with an infinite exponent, by the magnitude of the base; `rising` says whether a
magnitude above one leads to infinity. -/
noncomputable def powLimit (rising : Bool) (magnitude : Extended) : Extended :=
  extend (fun x => if x = 1 then real 1 else if decide (1 < x) = rising then top else real 0)
    nan (if rising then top else real 0) magnitude

/-- The power. -/
noncomputable def pow : Extended → Extended → Extended
  | real x, real y => powReal x y
  | x, top => if x = real 1 then real 1 else powLimit true (extend (fun t => real |t|) top top x)
  | x, bottom => if x = real 1 then real 1 else powLimit false (extend (fun t => real |t|) top top x)
  | x, real y =>
    if y = 0 then real 1
    else extend real (if 0 < y then (if Odd ⌊y⌋ ∧ y = ⌊y⌋ then bottom else top) else real 0)
      (if 0 < y then top else real 0) x
  | real x, nan => if x = 1 then real 1 else nan
  | _, nan => nan

/-- The double nearest to an extended real. -/
noncomputable def toDouble : Extended → Double
  | nan => Double.nan
  | bottom => Double.ofParts true (Nat.pow 2 52) 972
  | real x => Scalar.toDouble x
  | top => Double.infinity

/-- What a double denotes. -/
noncomputable def ofDouble (x : Double) : Extended :=
  if x.isNaN then nan
  else if x.isInfinite then (if x.isNegative then bottom else top)
  else real x.toReal

end Extended

open Extended in
/-- The extended reals are scalars, with the reals as finite numbers. -/
noncomputable instance : Scalar Extended where
  add := add
  sub x y := add x (neg y)
  mul := mul
  div := div
  neg := neg
  ofDouble := ofDouble
  ofQuotient m n := real ((m : ℝ) / n)
  pi := real Real.pi
  toDouble := toDouble
  toInt?
    | real x => Scalar.toInt? x
    | _ => none
  le := compare (· ≤ ·) true true
  lt := compare (· < ·) false true
  eq := compare (· = ·) true false
  exp := extend (fun x => real (Real.exp x)) (real 0) top
  log := extend logReal nan top
  logOnePlus := extend (fun x => logReal (1 + x)) nan top
  expMinusOne := extend (fun x => real (Real.exp x - 1)) (real (-1)) top
  sqrt := extend (fun x => if x < 0 then nan else real (Real.sqrt x)) nan top
  sin := extend (fun x => real (Real.sin x)) nan nan
  cos := extend (fun x => real (Real.cos x)) nan nan
  abs := extend (fun x => real |x|) top top
  floor := extend (fun x => real ⌊x⌋) bottom top
  round := extend (fun x => real (ExactReals.roundHalfEven x)) bottom top
  trunc := extend (fun x => real (if 0 ≤ x then ⌊x⌋ else ⌈x⌉)) bottom top
  pow := pow
  logistic := extend (fun x => real x.sigmoid) (real 0) (real 1)
  logGamma :=
    extend (fun x => if x ≤ 0 ∧ x = ⌊x⌋ then top else real (Real.log |Real.Gamma x|)) top top
  normalCdf := extend (fun x => real (ExactReals.normalCdf x)) (real 0) (real 1)
  logNormalCdf := extend (fun x => real (Real.log (ExactReals.normalCdf x))) bottom (real 0)
  normalQuantile :=
    extend (fun p =>
      if p < 0 ∨ 1 < p then nan else if p = 0 then bottom else if p = 1 then top
      else real (Scalar.normalQuantile p)) nan nan
  common x _ := x
  flush x := x

namespace Extended

/-- No extended real is flushed. -/
@[simp] theorem flush_eq (x : Extended) : Scalar.flush x = x := rfl

/-- What is no number is recognised. -/
@[simp] theorem isNaN_nan : Scalar.isNaN nan = true := rfl

/-- The bottom is a number. -/
@[simp] theorem isNaN_bottom : Scalar.isNaN bottom = false := rfl

/-- The top is a number. -/
@[simp] theorem isNaN_top : Scalar.isNaN top = false := rfl

/-- A real is a number. -/
@[simp] theorem isNaN_real (x : ℝ) : Scalar.isNaN (real x) = false := by
  show (!decide (x = x)) = false
  simp

/-- The least number is the bottom. -/
@[simp] theorem scalar_bottom : (Scalar.bottom : Extended) = bottom := by
  show ofDouble (Double.ofParts true (Nat.pow 2 52) 972) = bottom
  have hnan : (Double.ofParts true (Nat.pow 2 52) 972).isNaN = false := by decide
  have hinfinite : (Double.ofParts true (Nat.pow 2 52) 972).isInfinite = true := by decide
  have hnegative : (Double.ofParts true (Nat.pow 2 52) 972).isNegative = true := by decide
  rw [ofDouble, hnan, hinfinite, hnegative]
  rfl

/-- The greatest number is the top. -/
@[simp] theorem scalar_top : (Scalar.top : Extended) = top := by
  show ofDouble Double.infinity = top
  have hnan : Double.infinity.isNaN = false := by decide
  have hinfinite : Double.infinity.isInfinite = true := by decide
  have hnegative : Double.infinity.isNegative = false := by decide
  rw [ofDouble, hnan, hinfinite, hnegative]
  rfl

/-- What is no number among the scalars is so among the extended reals. -/
@[simp] theorem scalar_nan : (Scalar.nan : Extended) = nan := by
  show ofDouble Double.nan = nan
  have hnan : Double.nan.isNaN = true := by decide
  rw [ofDouble, if_pos hnan]

/-- Zero is a real. -/
@[simp] theorem scalar_zero : (Scalar.ofInt 0 : Extended) = real 0 := by
  show real (((0 : ℤ) : ℝ) / ((1 : ℤ) : ℝ)) = real 0
  simp

/-- An integer is this real. -/
theorem ofInt_eq (n : Int) : (Scalar.ofInt n : Extended) = real n := by
  show real ((n : ℝ) / ((1 : ℤ) : ℝ)) = real n
  simp

/-- Reals are added as such. -/
@[simp] theorem add_real (x y : ℝ) : real x + real y = real (x + y) := rfl

/-- The opposite of a real is a real. -/
@[simp] theorem neg_real (x : ℝ) : -real x = real (-x) := rfl

/-- Reals are compared as such. -/
@[simp] theorem lt_real (x y : ℝ) : Scalar.lt (real x) (real y) = decide (x < y) := rfl

section Order

variable {x y z : Extended}

/-- A lesser number is not at least the other one. -/
theorem le_eq_false_of_lt (h : Scalar.lt x y = true) : Scalar.le y x = false := by
  change compare (· < ·) false true x y = true at h
  change compare (· ≤ ·) true true y x = false
  cases x <;> cases y <;> simp_all [compare]

/-- A lesser number is not the greater one. -/
theorem lt_eq_false_of_lt (h : Scalar.lt x y = true) : Scalar.lt y x = false := by
  change compare (· < ·) false true x y = true at h
  change compare (· < ·) false true y x = false
  cases x <;> cases y <;> simp_all [compare, le_of_lt]

/-- A lesser number is not equal. -/
theorem eq_eq_false_of_lt (h : Scalar.lt x y = true) : Scalar.eq x y = false := by
  change compare (· < ·) false true x y = true at h
  change compare (· = ·) true false x y = false
  cases x <;> cases y <;> simp_all [compare, ne_of_lt]

/-- A greater number is not equal. -/
theorem eq_eq_false_of_gt (h : Scalar.lt y x = true) : Scalar.eq x y = false := by
  change compare (· < ·) false true y x = true at h
  change compare (· = ·) true false x y = false
  cases x <;> cases y <;> simp_all [compare, ne_of_gt]

/-- A number below a lesser one is below the greater one. -/
protected theorem lt_trans (hxy : Scalar.lt x y = true) (hyz : Scalar.lt y z = true) :
    Scalar.lt x z = true := by
  change compare (· < ·) false true x y = true at hxy
  change compare (· < ·) false true y z = true at hyz
  change compare (· < ·) false true x z = true
  cases x <;> cases y <;> cases z <;> simp_all [compare]
  exact hxy.trans hyz

/-- The greater one of two numbers is one of them. -/
protected theorem max_choice (x y : Extended) : Scalar.max x y = x ∨ Scalar.max x y = y := by
  unfold Scalar.max
  split_ifs
  · exact Or.inl rfl
  · exact Or.inr rfl
  · exact Or.inr rfl
  · exact Or.inl rfl
  · exact Or.inl rfl

/-- The lesser one of two numbers is one of them. -/
protected theorem min_choice (x y : Extended) : Scalar.min x y = x ∨ Scalar.min x y = y := by
  unfold Scalar.min
  split_ifs
  · exact Or.inl rfl
  · exact Or.inr rfl
  · exact Or.inr rfl
  · exact Or.inl rfl
  · exact Or.inl rfl

end Order

/-- The least number and what is no number: a sum with one of them is again one of them. -/
def IsInvalid (x : Extended) : Prop := x = bottom ∨ x = nan

/-- An invalid number stays invalid when something is added. -/
theorem IsInvalid.add_right {x : Extended} (h : x.IsInvalid) (y : Extended) :
    (x + y).IsInvalid := by
  show (add x y).IsInvalid
  rcases h with rfl | rfl
  · cases y <;> simp [add, IsInvalid]
  · simp [add, IsInvalid]

end Extended

/-- Extended reals are not flushed. -/
instance : ExactScalar Extended where
  add_comm x y := by
    show Extended.add x y = Extended.add y x
    cases x <;> cases y <;> simp [Extended.add, add_comm]
  add_assoc x y z := by
    show Extended.add (Extended.add x y) z = Extended.add x (Extended.add y z)
    cases x <;> cases y <;> cases z <;> simp [Extended.add, add_assoc]
  flush_eq _ := rfl

end BayesGraph
