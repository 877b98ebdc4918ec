import Mathlib.Tactic.Positivity
import BayesGraph.Printer
import BayesGraph.Proofs.ExpressionReader

/-!
# Reading what was printed

The reader meets the operands of an expression with a stack of operators that wait for them. When an
expression has been read, everything that binds weaker than it can be applied as if the expression
had been read as a whole (`Reads`). Parentheses are left out where an operand on the right is of the
same strength as its operator, and there the operations associate.
-/

set_option autoImplicit false

namespace BayesGraph

namespace Expr

/-! ## Expressions with the same meaning -/

/-- The expressions have the same value under every interpretation, and as slots they select the
same. -/
def Equivalent (e e' : Expr) : Prop :=
  ∀ (K : Type) [Field K] (I : Interpretation K), e.slot I = e'.slot I

/-- The expressions of two lists have the same meaning, one by one. -/
def EquivalentAll (es es' : List Expr) : Prop :=
  ∀ (K : Type) [Field K] (I : Interpretation K), es.map (slot I) = es'.map (slot I)

section

variable {K : Type} [Field K] (I : Interpretation K)

/-- The value of an expression is that of its slot. -/
theorem value_eq (e : Expr) : e.value I = match e.slot I with | .single x => x | _ => 0 := by
  cases e <;> rfl

/-- The slots of a list are taken one by one. -/
theorem slotsOfAll_eq (es : List Expr) : slotsOfAll I es = es.map (slot I) := by
  induction es with
  | nil => rfl
  | cons e es ih => cases e <;> exact congrArg (_ :: ·) ih

/-- The values of a list are taken one by one. -/
theorem valuesOfAll_eq (es : List Expr) : valuesOfAll I es = es.map (value I) := by
  induction es with
  | nil => rfl
  | cons e es ih => exact congrArg (_ :: ·) ih

end

namespace Equivalent

variable {e e' e'' a a' b b' : Expr} {es es' : List Expr}

/-- An expression has the meaning of itself. -/
theorem refl (e : Expr) : e.Equivalent e := fun _ _ _ => rfl

/-- Sameness of meaning is transitive. -/
theorem trans (h : e.Equivalent e') (h' : e'.Equivalent e'') : e.Equivalent e'' :=
  fun K _ I => (h K I).trans (h' K I)

/-- Expressions with the same meaning have the same value. -/
theorem value_eq (h : e.Equivalent e') {K : Type} [Field K] (I : Interpretation K) :
    e.value I = e'.value I := by
  rw [Expr.value_eq, Expr.value_eq, h K I]

/-- A range keeps its meaning if its bounds do. -/
theorem range (ha : a.Equivalent a') (hb : b.Equivalent b') :
    (Expr.range a b).Equivalent (.range a' b') := by
  intro K _ I
  rw [slot, slot, ha.value_eq I, hb.value_eq I]

/-- A negation keeps its meaning if its operand does. -/
theorem negate (h : e.Equivalent e') : e.negate.Equivalent e'.negate := by
  intro K _ I
  exact congrArg (fun x => SlotValue.single (-x)) (h.value_eq I)

/-- An operation keeps its meaning if both operands do. -/
theorem apply (op : Operator) (ha : a.Equivalent a') (hb : b.Equivalent b') :
    (op.apply a b).Equivalent (op.apply a' b') := by
  intro K _ I
  cases op <;> simp only [Operator.apply, slot, value, ha.value_eq I, hb.value_eq I]

/-- A call or an indexed name keeps its meaning if its items do. -/
theorem make (bracket : Bracket) (name : String) (h : EquivalentAll es es') :
    (bracket.make name es).Equivalent (bracket.make name es') := by
  intro K _ I
  cases bracket with
  | index => simp only [Bracket.make, slot, value, slotsOfAll_eq, h K I]
  | call =>
    have hvalues : es.map (value I) = es'.map (value I) := by
      have hslots := congrArg (List.map fun
        | SlotValue.single x => x
        | _ => 0) (h K I)
      simpa only [List.map_map, Function.comp_def, ← Expr.value_eq] using hslots
    simp only [Bracket.make, slot, value, valuesOfAll_eq, hvalues]

end Equivalent

namespace EquivalentAll

variable {es es' es'' : List Expr} {e e' : Expr}

/-- A list has the meaning of itself. -/
theorem refl (es : List Expr) : EquivalentAll es es := fun _ _ _ => rfl

/-- Sameness of meaning is transitive for lists. -/
theorem trans (h : EquivalentAll es es') (h' : EquivalentAll es' es'') : EquivalentAll es es'' :=
  fun K _ I => (h K I).trans (h' K I)

/-- Lists with the same meaning can be continued by expressions with the same meaning. -/
theorem concat (h : EquivalentAll es es') (he : e.Equivalent e') :
    EquivalentAll (es ++ [e]) (es' ++ [e']) := by
  intro K _ I
  rw [List.map_append, List.map_append, h K I, List.map_singleton, List.map_singleton, he K I]

/-- Lists with the same meaning can be continued by the same list. -/
theorem append {fs : List Expr} (h : EquivalentAll es es') :
    EquivalentAll (es ++ fs) (es' ++ fs) := by
  intro K _ I
  rw [List.map_append, List.map_append, h K I]

end EquivalentAll

end Expr

open BayesGraph.Expr

/-! ## Operators that wait -/

/-- Every operator asks its left operand to bind. -/
theorem Operator.left_pos (op : Operator) : 0 < op.left := by
  cases op <;> decide

/-- The left operand of an operator has to bind at least as strongly as the operator. -/
theorem Operator.strength_le_left (op : Operator) : op.strength ≤ op.left := by
  cases op <;> decide

/-- The right operand of an operator has to bind at least as strongly as the operator. -/
theorem Operator.strength_le_right (op : Operator) : op.strength ≤ op.right := by
  cases op <;> decide

/-- The symbol of an operator is read as the operator. -/
theorem Operator.ofSymbol?_symbol (op : Operator) : ofSymbol? op.symbol = some op := by
  cases op <;> rfl

/-- An operator that may stand under a unary minus does not finish it. -/
theorem Operator.lt_left {op : Operator} (h : 4 ≤ op.strength) : 3 < op.left := by
  revert h
  cases op <;> decide

/-- An operator that leaves out the parentheses around an operand of its own strength on the right
associates with what stands there. -/
theorem Operator.associates {op op' : Operator} (hleft : op'.left ≤ op.strength)
    (hright : op.right ≤ op'.strength) : op.left = op'.left ∧ op.strength = op'.strength ∧
      ∀ a b c, (op'.apply (op.apply a b) c).Equivalent (op.apply a (op'.apply b c)) := by
  have hpair : op = .add ∧ op' = .add ∨ op = .add ∧ op' = .sub ∨ op = .mul ∧ op' = .mul ∨
      op = .mul ∧ op' = .div := by
    revert hleft hright
    cases op <;> cases op' <;> decide
  obtain ⟨rfl, rfl⟩ | ⟨rfl, rfl⟩ | ⟨rfl, rfl⟩ | ⟨rfl, rfl⟩ := hpair <;>
    refine ⟨rfl, rfl, fun a b c K _ I => congrArg SlotValue.single ?_⟩
  · exact add_assoc (a.value I) (b.value I) (c.value I)
  · exact add_sub_assoc (a.value I) (b.value I) (c.value I)
  · exact mul_assoc (a.value I) (b.value I) (c.value I)
  · exact mul_div_assoc (a.value I) (b.value I) (c.value I)

namespace Waiting

/-- How strongly an operand on the stack has to bind. -/
def required : List Waiting → Nat
  | operation _ op :: _ => op.right
  | negation :: _ => 4
  | _ => 0

/-- How strongly the top of the stack holds its operand. -/
def held : List Waiting → Nat
  | top :: _ => top.strength
  | [] => 0

/-- Below each operator stands nothing that it could have finished. -/
def Stacked : List Waiting → Prop
  | operation _ op :: stack => held stack < op.left ∧ Stacked stack
  | _ :: stack => Stacked stack
  | [] => True

/-- The same things wait, and their operands have the same meaning. -/
inductive Alike : List Waiting → List Waiting → Prop where
  | nil : Alike [] []
  | operation {stack stack' : List Waiting} {l l' : Expr} (op : Operator) (hl : l.Equivalent l')
    (h : Alike stack stack') : Alike (operation l op :: stack) (operation l' op :: stack')
  | negation {stack stack' : List Waiting} (h : Alike stack stack') :
    Alike (negation :: stack) (negation :: stack')
  | group {stack stack' : List Waiting} (h : Alike stack stack') :
    Alike (group :: stack) (group :: stack')
  | items {stack stack' : List Waiting} {before before' : List Expr} (bracket : Bracket)
    (name : String) (hbefore : EquivalentAll before before') (h : Alike stack stack') :
    Alike (items bracket name before :: stack) (items bracket name before' :: stack')
  | range {stack stack' : List Waiting} {before before' : List Expr} {start start' : Expr}
    (name : String) (hbefore : EquivalentAll before before') (hstart : start.Equivalent start')
    (h : Alike stack stack') :
    Alike (range name before start :: stack) (range name before' start' :: stack')

/-- A stack is like itself. -/
theorem Alike.refl (stack : List Waiting) : Alike stack stack := by
  induction stack with
  | nil => exact .nil
  | cons top stack ih =>
    cases top with
    | operation l op => exact .operation op (.refl l) ih
    | negation => exact .negation ih
    | group => exact .group ih
    | items bracket name before => exact .items bracket name (.refl before) ih
    | range name before start => exact .range name (.refl before) (.refl start) ih

/-- Likeness of stacks is transitive. -/
theorem Alike.trans {stack stack' stack'' : List Waiting} (h : Alike stack stack')
    (h' : Alike stack' stack'') : Alike stack stack'' := by
  induction h generalizing stack'' with
  | nil => exact h'
  | operation op hl _ ih =>
    cases h' with
    | operation _ hl' h' => exact .operation op (hl.trans hl') (ih h')
  | negation _ ih =>
    cases h' with
    | negation h' => exact .negation (ih h')
  | group _ ih =>
    cases h' with
    | group h' => exact .group (ih h')
  | items bracket name hbefore _ ih =>
    cases h' with
    | items _ _ hbefore' h' => exact .items bracket name (hbefore.trans hbefore') (ih h')
  | range name hbefore hstart _ ih =>
    cases h' with
    | range _ hbefore' hstart' h' =>
      exact .range name (hbefore.trans hbefore') (hstart.trans hstart') (ih h')

/-- The same things wait, and the operand behind them has the same meaning. -/
def SameState (s s' : List Waiting × Expr) : Prop := Alike s.1 s'.1 ∧ s.2.Equivalent s'.2

/-- A state is the same as itself. -/
theorem SameState.refl (s : List Waiting × Expr) : SameState s s := ⟨.refl s.1, .refl s.2⟩

/-- Sameness of states is transitive. -/
theorem SameState.trans {s s' s'' : List Waiting × Expr} (h : SameState s s')
    (h' : SameState s' s'') : SameState s s'' :=
  ⟨h.1.trans h'.1, h.2.trans h'.2⟩

variable {stack stack' : List Waiting} {e e' : Expr} {k : Nat}

/-- A stack whose top holds its operand less strongly is left as it is. -/
theorem finish_of_lt (h : held stack < k) (e : Expr) : finish k stack e = (stack, e) := by
  cases stack with
  | nil => rfl
  | cons top stack =>
    cases top with
    | operation l op => exact if_neg (not_le.mpr h)
    | negation => exact if_neg (not_le.mpr h)
    | group | items _ _ _ | range _ _ _ => rfl

/-- A waiting operator that is strong enough is applied. -/
theorem finish_operation {l : Expr} {op : Operator} (h : k ≤ op.strength) (stack : List Waiting)
    (e : Expr) : finish k (operation l op :: stack) e = finish k stack (op.apply l e) :=
  if_pos h

/-- A waiting minus that is strong enough is applied. -/
theorem finish_negation (h : k ≤ 3) (stack : List Waiting) (e : Expr) :
    finish k (negation :: stack) e = finish k stack (.negate e) :=
  if_pos h

/-- What is finished leaves operators that bind weaker. -/
theorem stacked_finish (h : Stacked stack) (hk : 0 < k) (e : Expr) :
    Stacked (finish k stack e).1 ∧ held (finish k stack e).1 < k := by
  induction stack generalizing e with
  | nil => exact ⟨h, hk⟩
  | cons top stack ih =>
    by_cases hheld : held (top :: stack) < k
    · rw [finish_of_lt hheld]
      exact ⟨h, hheld⟩
    · cases top with
      | operation l op =>
        rw [finish_operation (not_lt.mp hheld)]
        exact ih h.2 _
      | negation =>
        rw [finish_negation (not_lt.mp hheld)]
        exact ih h _
      | group | items _ _ _ | range _ _ _ => exact absurd hk hheld

/-- Finishing leads from stacks that are alike to states that are the same. -/
theorem finish_alike (h : Alike stack stack') (he : e.Equivalent e') (k : Nat) :
    SameState (finish k stack e) (finish k stack' e') := by
  induction h generalizing e e' with
  | nil => exact ⟨.nil, he⟩
  | operation op hl h ih =>
    by_cases hk : k ≤ op.strength
    · rw [finish_operation hk, finish_operation hk]
      exact ih (hl.apply op he)
    · rw [finish_of_lt (not_le.mp hk), finish_of_lt (not_le.mp hk)]
      exact ⟨.operation op hl h, he⟩
  | negation h ih =>
    by_cases hk : k ≤ 3
    · rw [finish_negation hk, finish_negation hk]
      exact ih he.negate
    · rw [finish_of_lt (not_le.mp hk), finish_of_lt (not_le.mp hk)]
      exact ⟨.negation h, he⟩
  | group h => exact ⟨.group h, he⟩
  | items bracket name hbefore h => exact ⟨.items bracket name hbefore h, he⟩
  | range name hbefore hstart h => exact ⟨.range name hbefore hstart h, he⟩

/-- The operands of an operator may be read one after the other. If an operator of the same strength
waits for the whole, it is given the left operand alone, and the two associate. -/
theorem finish_apply {op : Operator} (hstacked : Stacked stack)
    (hrequired : required stack ≤ op.strength) (hk : k ≤ op.strength) (l r : Expr) :
    SameState
      (finish k (operation (finish op.left stack l).2 op :: (finish op.left stack l).1) r)
      (finish k stack (op.apply l r)) := by
  rw [finish_operation hk]
  by_cases hheld : held stack < op.left
  · rw [finish_of_lt hheld]
    exact .refl _
  · cases stack with
    | nil => exact absurd op.left_pos hheld
    | cons top stack =>
      cases top with
      | operation a op' =>
        obtain ⟨hleft, hstrength, hassoc⟩ := Operator.associates (not_lt.mp hheld) hrequired
        have hbelow : held stack < op.left := hleft ▸ hstacked.1
        rw [finish_operation (not_lt.mp hheld), finish_of_lt hbelow,
          finish_operation (hstrength ▸ hk)]
        exact finish_alike (.refl stack) (hassoc a l r) k
      | negation => exact absurd (Operator.lt_left hrequired) hheld
      | group | items _ _ _ | range _ _ _ => exact absurd op.left_pos hheld

end Waiting

/-! ## Tokens of an expression -/

namespace Datum

/-- The text of a number without its sign. -/
def unsigned (d : Datum) : String :=
  String.ofList (match d.literalText.toList with | '-' :: rest => rest | chars => chars)

/-- The object is a number, and it is not a negative zero, infinite or a NaN. -/
def Regular : Datum → Prop
  | .int _ => True
  | .real x => x.isFinite = true ∧ ¬ (x.isNegative = true ∧ x.isZero = true)
  | _ => False

/-- The text of a number is read back as the number: its sign is a unary minus, and what is left is
read as the magnitude. -/
def ReadBy (numeral : String → Option Datum) (d : Datum) : Prop :=
  ∃ m, numeral d.unsigned = some m ∧ m.rational = |d.rational|

/-- A regular float is below zero if and only if it has a sign. -/
theorem Regular.isBelowZero_eq {x : Double} (h : Regular (.real x)) :
    x.isBelowZero = x.isNegative := by
  obtain ⟨hfinite, hzero⟩ := h
  have hnan : x.isNaN = false := by
    rw [Double.isFinite, bne_iff_ne] at hfinite
    simp [Double.isNaN, hfinite]
  cases hnegative : x.isNegative <;> simp_all [Double.isBelowZero]

/-- A regular number has a sign, and its value is the magnitude with that sign. -/
theorem Regular.exists_sign {d : Datum} (h : d.Regular) : ∃ negative,
    d.isNegative? = some negative ∧
      d.rational = if negative = true then -|d.rational| else |d.rational| := by
  cases d with
  | int n =>
    refine ⟨_, rfl, ?_⟩
    split
    · next hn =>
      have hneg : (n : ℚ) < 0 := by exact_mod_cast of_decide_eq_true hn
      rw [rational, abs_of_neg hneg, neg_neg]
    · next hn =>
      have hnonneg : (0 : ℚ) ≤ n := by
        exact_mod_cast not_lt.mp fun hlt => hn (decide_eq_true hlt)
      rw [rational, abs_of_nonneg hnonneg]
  | real x =>
    refine ⟨x.isNegative, congrArg some h.isBelowZero_eq, ?_⟩
    have hnonneg : (0 : ℚ) ≤ x.numerator / x.denominator := by positivity
    cases hnegative : x.isNegative with
    | true =>
      rw [if_pos rfl, rational, hnegative, if_pos rfl, neg_one_mul, abs_neg, abs_of_nonneg hnonneg]
    | false =>
      rw [if_neg Bool.false_ne_true, rational, hnegative, if_neg Bool.false_ne_true, one_mul,
        abs_of_nonneg hnonneg]
  | text _ | truth _ | nothing | list _ | record _ => exact h.elim

end Datum

namespace Expr

open Waiting

/-- How strongly an expression binds. -/
def binding (e : Expr) : Nat :=
  match e.precedence with
  | .ok p => p
  | .error _ => 5

/-- Parentheses around an operand that binds weaker than `least`. -/
def enclosed (e : Expr) (least : Nat) (tokens : List Token) : List Token :=
  if e.binding < least then .symbol '(' :: (tokens ++ [.symbol ')']) else tokens

section

variable (numeral : String → Option Datum)

mutual

/-- The tokens of the text of an expression. -/
def tokens : Expr → List Token
  | .literal d =>
    (if d.isNegative? = some true then [.symbol '-'] else []) ++
      ((numeral d.unsigned).map Token.number).toList
  | .var name => [.name name.shown]
  | .range a b => tokens a ++ .symbol ':' :: tokens b
  | .index name indices =>
    .name name.shown :: .symbol '[' :: (tokensOfAll indices ++ [.symbol ']'])
  | .negate e => .symbol '-' :: enclosed e 4 (tokens e)
  | .add a b => enclosed a 1 (tokens a) ++ .symbol '+' :: enclosed b 1 (tokens b)
  | .sub a b => enclosed a 1 (tokens a) ++ .symbol '-' :: enclosed b 2 (tokens b)
  | .mul a b => enclosed a 2 (tokens a) ++ .symbol '*' :: enclosed b 2 (tokens b)
  | .div a b => enclosed a 2 (tokens a) ++ .symbol '/' :: enclosed b 3 (tokens b)
  | .pow a b => enclosed a 5 (tokens a) ++ .symbol '^' :: enclosed b 4 (tokens b)
  | .call func arguments =>
    .name func.shown :: .symbol '(' :: (tokensOfAll arguments ++ [.symbol ')'])
  | .colon | .ref _ | .refArray _ _ | .raw _ | .rawList _ => []

/-- The tokens of the items of a comma-separated list. -/
def tokensOfAll : List Expr → List Token
  | [] => []
  | [e] => tokens e
  | e :: next :: rest => tokens e ++ .symbol ',' :: tokensOfAll (next :: rest)

end

end

variable {numeral : String → Option Datum}

/-- An operation binds as strongly as its operator. -/
theorem binding_apply (op : Operator) (a b : Expr) : (op.apply a b).binding = op.strength := by
  cases op <;> rfl

/-- A negative number binds like a unary minus, any other one like a name. -/
theorem binding_literal {d : Datum} {negative : Bool} (h : d.isNegative? = some negative) :
    (Expr.literal d).binding = if negative = true then 3 else 5 := by
  unfold binding precedence
  dsimp only
  rw [h]
  cases negative <;> rfl

/-- The tokens of an operation are those of its operands, in parentheses where they bind weaker,
around its symbol. -/
theorem tokens_apply (op : Operator) (a b : Expr) :
    tokens numeral (op.apply a b) = enclosed a op.left (tokens numeral a) ++
      .symbol op.symbol :: enclosed b op.right (tokens numeral b) := by
  cases op <;> rfl

/-! ## Reading the tokens -/

/-- The tokens do not open a bracket. -/
def Detached (rest : List Token) : Prop :=
  ∀ c tail, rest = .symbol c :: tail → c ≠ '(' ∧ c ≠ '['

/-- A symbol that opens no bracket detaches what stands before it. -/
theorem Detached.symbol {c : Char} (hparen : c ≠ '(') (hbracket : c ≠ '[') (rest : List Token) :
    Detached (.symbol c :: rest) := by
  intro _ _ heq
  cases heq
  exact ⟨hparen, hbracket⟩

/-- A name is the variable, unless a bracket follows. -/
theorem readOperand_name {rest : List Token} (h : Detached rest) (stack : List Waiting)
    (s : String) :
    readOperand stack (.name s :: rest) = readOperator stack (.var (.text s)) rest := by
  rw [readOperand]
  · intro tail heq
    exact (h '(' tail heq).1 rfl
  · intro tail heq
    exact (h '[' tail heq).2 rfl

/-- Reads on after a symbol that is not an operator. -/
def readBehind (rest : List Token) : Option (List Waiting × Option Expr) → Option Expr
  | some (stack, some e) => readOperator stack e rest
  | some (stack, none) => readOperand stack rest
  | none => none

/-- A symbol that is no operator finishes what waits, up to a bracket or a comma. -/
theorem readOperator_close {c : Char} (h : Operator.ofSymbol? c = none) (stack : List Waiting)
    (e : Expr) (rest : List Token) :
    readOperator stack e (.symbol c :: rest) = readBehind rest (close c (finish 1 stack e)) := by
  rw [readOperator, h]
  rfl

/-- The symbol of an operator finishes what waits, and then waits itself. -/
theorem readOperator_symbol (op : Operator) (stack : List Waiting) (e : Expr) (rest : List Token) :
    readOperator stack e (.symbol op.symbol :: rest) =
      readOperand (.operation (finish op.left stack e).2 op :: (finish op.left stack e).1)
        rest := by
  rw [readOperator, op.ofSymbol?_symbol]

/-- With this stack, the tokens are read as the expression: an operator of strength `least` or less
finishes the same. -/
def ReadsTo (stack : List Waiting) (e : Expr) (least : Nat) (tokens rest : List Token) : Prop :=
  ∃ stack' x, readOperand stack (tokens ++ rest) = readOperator stack' x rest ∧ Stacked stack' ∧
    ∀ k, 0 < k → k ≤ least → SameState (finish k stack' x) (finish k stack e)

/-- The tokens of the expression are read as the expression, with every stack that requires nothing
stronger. -/
def Reads (numeral : String → Option Datum) (e : Expr) : Prop :=
  ∀ stack rest, Stacked stack → required stack ≤ e.binding → Detached rest →
    ReadsTo stack e e.binding (tokens numeral e) rest

/-- Every expression binds. -/
theorem binding_pos (e : Expr) : 0 < e.binding := by
  unfold binding precedence
  cases e with
  | literal d =>
    dsimp only
    cases d.isNegative? with
    | none => decide
    | some negative => cases negative <;> decide
  | _ => exact Nat.succ_pos _

variable {e a b : Expr} {stack : List Waiting} {rest : List Token}

namespace Reads

/-- An operand inside of a bracket is complete when a symbol follows that is not an operator. -/
theorem closed (h : Reads numeral e) (hstacked : Stacked stack) (hheld : held stack = 0)
    (hrequired : required stack = 0) {c : Char} (hsymbol : Operator.ofSymbol? c = none)
    (hdetached : Detached (.symbol c :: rest)) : ∃ stack' x,
      readOperand stack (tokens numeral e ++ .symbol c :: rest) =
        readBehind rest (close c (stack', x)) ∧
      Stacked stack' ∧ Alike stack' stack ∧ x.Equivalent e := by
  have hrequired' : required stack ≤ e.binding := hrequired.trans_le (Nat.zero_le _)
  obtain ⟨stack', x, hread, hstacked', hstate⟩ := h stack _ hstacked hrequired' hdetached
  obtain ⟨hstack, hx⟩ := hstate 1 Nat.one_pos e.binding_pos
  have hbelow : held stack < 1 := hheld.trans_lt Nat.one_pos
  rw [finish_of_lt hbelow] at hstack hx
  rw [readOperator_close hsymbol] at hread
  exact ⟨_, _, hread, (stacked_finish hstacked' Nat.one_pos x).1, hstack, hx⟩

/-- Parentheses hide how weakly an operand binds. -/
theorem enclosed (h : Reads numeral e) {least : Nat} (hstacked : Stacked stack)
    (hrequired : required stack ≤ least) (hdetached : Detached rest) :
    ReadsTo stack e least (e.enclosed least (tokens numeral e)) rest := by
  unfold Expr.enclosed
  split
  · have hclosing : Detached (.symbol ')' :: rest) := .symbol (by decide) (by decide) rest
    have hgroup : Stacked (group :: stack) := hstacked
    obtain ⟨stack', x, hread, hstacked', hstack, hx⟩ := h.closed hgroup rfl rfl rfl hclosing
    cases hstack with
    | @group below _ hstack =>
      refine ⟨below, x, ?_, hstacked', fun k _ _ => finish_alike hstack hx k⟩
      rw [List.cons_append, List.append_assoc]
      exact hread
  · next hbinding =>
    have hle : least ≤ e.binding := not_lt.mp hbinding
    obtain ⟨stack', x, hread, hstacked', hstate⟩ :=
      h stack rest hstacked (hrequired.trans hle) hdetached
    exact ⟨stack', x, hread, hstacked', fun k hk hkle => hstate k hk (hkle.trans hle)⟩

/-- An operation is read back if its operands are. -/
theorem operation (op : Operator) (ha : Reads numeral a) (hb : Reads numeral b) :
    Reads numeral (op.apply a b) := by
  intro stack rest hstacked hrequired hdetached
  rw [binding_apply] at hrequired ⊢
  have hsymbol :
      Detached (.symbol op.symbol :: (b.enclosed op.right (tokens numeral b) ++ rest)) := by
    refine .symbol ?_ ?_ _ <;> cases op <;> decide
  obtain ⟨stack₁, x₁, hread₁, hstacked₁, hstate₁⟩ :=
    ha.enclosed hstacked (hrequired.trans op.strength_le_left) hsymbol
  -- the left operand is finished as far as the operator asks for
  obtain ⟨hfinished, hheld⟩ := stacked_finish hstacked₁ op.left_pos x₁
  have hwaiting : Stacked
      (.operation (finish op.left stack₁ x₁).2 op :: (finish op.left stack₁ x₁).1) :=
    ⟨hheld, hfinished⟩
  obtain ⟨stack₂, x₂, hread₂, hstacked₂, hstate₂⟩ :=
    hb.enclosed hwaiting (Nat.le_refl op.right) hdetached
  refine ⟨stack₂, x₂, ?_, hstacked₂, fun k hk hle => ?_⟩
  · rw [tokens_apply, List.append_assoc, List.cons_append, hread₁, readOperator_symbol, hread₂]
  · obtain ⟨hstack, hx⟩ := hstate₁ op.left op.left_pos (Nat.le_refl _)
    refine (hstate₂ k hk (hle.trans op.strength_le_right)).trans ?_
    refine (finish_alike (.operation op hx hstack) (.refl b) k).trans ?_
    exact finish_apply hstacked hrequired hle a b

/-- A negation is read back if its operand is. -/
theorem negate (he : Reads numeral e) : Reads numeral (.negate e) := by
  intro stack rest hstacked hrequired hdetached
  have hwaiting : Stacked (negation :: stack) := hstacked
  obtain ⟨stack', x, hread, hstacked', hstate⟩ :=
    he.enclosed hwaiting (Nat.le_refl 4) hdetached
  refine ⟨stack', x, hread, hstacked', fun k hk hle => ?_⟩
  rw [← finish_negation hle]
  exact hstate k hk (hle.trans (Nat.le_succ 3))

/-- A name is read back. -/
theorem var (s : String) : Reads numeral (.var (.text s)) := by
  intro stack rest hstacked _ hdetached
  exact ⟨stack, _, readOperand_name hdetached stack s, hstacked, fun k _ _ => .refl _⟩

/-- A regular number is read back if its text is. -/
theorem literal {d : Datum} (h : d.Regular) (hread : d.ReadBy numeral) :
    Reads numeral (.literal d) := by
  obtain ⟨m, hm, hmagnitude⟩ := hread
  obtain ⟨negative, hnegative, hsign⟩ := h.exists_sign
  rw [← hmagnitude] at hsign
  intro stack rest hstacked _ _
  rw [binding_literal hnegative, tokens, hnegative, hm]
  cases negative with
  | true =>
    have hvalue : (Expr.literal m).negate.Equivalent (.literal d) := by
      intro K _ I
      refine congrArg SlotValue.single ?_
      show -((m.rational : ℚ) : K) = ((d.rational : ℚ) : K)
      rw [hsign, if_pos rfl, Rat.cast_neg]
    refine ⟨negation :: stack, .literal m, rfl, hstacked, fun k _ hle => ?_⟩
    rw [finish_negation hle]
    exact finish_alike (.refl stack) hvalue k
  | false =>
    have hvalue : (Expr.literal m).Equivalent (.literal d) := by
      intro K _ I
      refine congrArg SlotValue.single ?_
      show ((m.rational : ℚ) : K) = ((d.rational : ℚ) : K)
      rw [hsign, if_neg Bool.false_ne_true]
    exact ⟨stack, .literal m, rfl, hstacked, fun k _ _ => finish_alike (.refl stack) hvalue k⟩

end Reads

/-! ## Lists in brackets -/

/-- An index slot is empty, a range of expressions with the property, or such an expression. -/
def OnSlot (p : Expr → Prop) : Expr → Prop
  | .colon => True
  | .range start stop => p start ∧ p stop
  | e => p e

/-- The items of a list can be read: arguments are expressions, and index slots may be slices. -/
def ReadsItem (numeral : String → Option Datum) : Bracket → Expr → Prop
  | .call => Reads numeral
  | .index => OnSlot (Reads numeral)

/-- Reads on behind an item of a list, at the comma or at the end. -/
def readList (bracket : Bracket) (name : String) (rest : List Token) (c : Char)
    (stack : List Waiting) (before : List Expr) : Option Expr :=
  if c = ',' then readOperand (.items bracket name before :: stack) rest
  else readOperator stack (bracket.make name before) rest

section

variable {bracket : Bracket} {name : String} {before : List Expr} {c : Char}

/-- What ends an item is no operator. -/
theorem ofSymbol?_of_ends (hc : c = ',' ∨ c = bracket.closing) : Operator.ofSymbol? c = none := by
  rcases hc with rfl | rfl
  · rfl
  · cases bracket <;> rfl

/-- What ends an item opens no bracket. -/
theorem detached_of_ends (hc : c = ',' ∨ c = bracket.closing) (rest : List Token) :
    Detached (.symbol c :: rest) := by
  rcases hc with rfl | rfl
  · exact .symbol (by decide) (by decide) rest
  · cases bracket <;> exact .symbol (by decide) (by decide) rest

/-- An expression is read as an item of a list. -/
theorem Reads.item (h : Reads numeral e) (hc : c = ',' ∨ c = bracket.closing)
    (hstacked : Stacked stack) : ∃ stack' before',
      readOperand (.items bracket name before :: stack) (tokens numeral e ++ .symbol c :: rest) =
        readList bracket name rest c stack' before' ∧
      Stacked stack' ∧ Alike stack' stack ∧ EquivalentAll before' (before ++ [e]) := by
  have hitems : Stacked (.items bracket name before :: stack) := hstacked
  obtain ⟨stack', x, hread, hstacked', hstack, hx⟩ :=
    h.closed hitems rfl rfl (ofSymbol?_of_ends hc) (detached_of_ends hc rest)
  cases hstack with
  | @items below _ before' _ _ _ hbefore hstack =>
    refine ⟨below, before' ++ [x], ?_, hstacked', hstack, hbefore.concat hx⟩
    rw [hread]
    rcases hc with rfl | rfl
    · rfl
    · cases bracket <;> rfl

/-- A range is read as an index slot. -/
theorem reads_range (ha : Reads numeral a) (hb : Reads numeral b)
    (hc : c = ',' ∨ c = Bracket.index.closing) (hstacked : Stacked stack) : ∃ stack' before',
      readOperand (.items .index name before :: stack)
          (tokens numeral (.range a b) ++ .symbol c :: rest) =
        readList .index name rest c stack' before' ∧
      Stacked stack' ∧ Alike stack' stack ∧ EquivalentAll before' (before ++ [.range a b]) := by
  have hitems : Stacked (.items .index name before :: stack) := hstacked
  have hcolon : Detached (.symbol ':' :: (tokens numeral b ++ .symbol c :: rest)) :=
    .symbol (by decide) (by decide) _
  obtain ⟨stack₁, x, hread, hstacked₁, hstack₁, hx⟩ := ha.closed hitems rfl rfl rfl hcolon
  cases hstack₁ with
  | @items below₁ _ before₁ _ _ _ hbefore₁ hstack₁ =>
    have hrange : Stacked (.range name before₁ x :: below₁) := hstacked₁
    obtain ⟨stack₂, y, hread₂, hstacked₂, hstack₂, hy⟩ :=
      hb.closed hrange rfl rfl (ofSymbol?_of_ends hc) (detached_of_ends hc rest)
    cases hstack₂ with
    | @range below₂ _ before₂ _ start _ _ hbefore₂ hstart hstack₂ =>
      refine ⟨below₂, before₂ ++ [.range start y], ?_, hstacked₂, hstack₂.trans hstack₁,
        (hbefore₂.trans hbefore₁).concat ((hstart.trans hx).range hy)⟩
      rw [tokens, List.append_assoc, List.cons_append, hread]
      refine hread₂.trans ?_
      rcases hc with rfl | rfl <;> rfl

/-- An item is read up to the symbol that ends it, and joins the items before it. -/
theorem ReadsItem.read (h : ReadsItem numeral bracket e) (hc : c = ',' ∨ c = bracket.closing)
    (hstacked : Stacked stack) : ∃ stack' before',
      readOperand (.items bracket name before :: stack) (tokens numeral e ++ .symbol c :: rest) =
        readList bracket name rest c stack' before' ∧
      Stacked stack' ∧ Alike stack' stack ∧ EquivalentAll before' (before ++ [e]) := by
  cases bracket with
  | call => exact Reads.item h hc hstacked
  | index =>
    cases e with
    | colon =>
      refine ⟨stack, before ++ [.colon], ?_, hstacked, .refl stack, .refl _⟩
      rcases hc with rfl | rfl <;> rfl
    | range a b => exact reads_range h.1 h.2 hc hstacked
    | _ => exact Reads.item h hc hstacked

/-- The items of a list are read one after the other, up to its end. -/
theorem reads_items (name : String) (before : List Expr) (rest : List Token) {es : List Expr}
    (h : ∀ e ∈ es, ReadsItem numeral bracket e) (hne : es ≠ []) (hstacked : Stacked stack) :
    ∃ stack' before',
      readOperand (.items bracket name before :: stack)
          (tokensOfAll numeral es ++ .symbol bracket.closing :: rest) =
        readOperator stack' (bracket.make name before') rest ∧
      Stacked stack' ∧ Alike stack' stack ∧ EquivalentAll before' (before ++ es) := by
  induction es generalizing before stack with
  | nil => exact absurd rfl hne
  | cons e es ih =>
    obtain ⟨he, hes⟩ := List.forall_mem_cons.mp h
    cases es with
    | nil =>
      obtain ⟨stack', before', hread, hstacked', hstack, hbefore⟩ := he.read (.inr rfl) hstacked
      refine ⟨stack', before', hread.trans (if_neg ?_), hstacked', hstack, hbefore⟩
      cases bracket <;> decide
    | cons next es =>
      obtain ⟨stack₁, before₁, hread₁, hstacked₁, hstack₁, hbefore₁⟩ := he.read (.inl rfl) hstacked
      obtain ⟨stack₂, before₂, hread₂, hstacked₂, hstack₂, hbefore₂⟩ :=
        ih before₁ hes (List.cons_ne_nil _ _) hstacked₁
      refine ⟨stack₂, before₂, ?_, hstacked₂, hstack₂.trans hstack₁, ?_⟩
      · rw [tokensOfAll, List.append_assoc, List.cons_append, hread₁]
        exact hread₂
      · refine hbefore₂.trans ?_
        rw [List.append_cons before e (next :: es)]
        exact hbefore₁.append

end

namespace Reads

/-- A name with a list that is not empty. -/
theorem list (bracket : Bracket) (name : String) {es : List Expr} (hne : es ≠ [])
    (h : ∀ e ∈ es, ReadsItem numeral bracket e) : Reads numeral (bracket.make name es) := by
  intro stack rest hstacked _ _
  obtain ⟨stack', before, hread, hstacked', hstack, hbefore⟩ :=
    reads_items name [] rest h hne hstacked
  refine ⟨stack', bracket.make name before, ?_, hstacked', fun k _ _ =>
    finish_alike hstack (.make bracket name hbefore) k⟩
  rw [← hread]
  cases bracket <;> simp [Bracket.make, tokens, readOperand, Bracket.closing, Datum.shown]

/-- A call without arguments. -/
theorem call_nil (func : String) : Reads numeral (.call (.text func) []) := by
  intro stack rest hstacked _ _
  exact ⟨stack, .call (.text func) [], rfl, hstacked, fun k _ _ => .refl _⟩

end Reads

end Expr

end BayesGraph
