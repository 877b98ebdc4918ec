import BayesGraph.Dual
import BayesGraph.Proofs.Build

/-!
# Texts that are accepted as names

A name is a letter and then letters, digits, points and underscores, where only ASCII characters
count (`Names.IsName`). The recognizer accepts one text more for each name: the name with a line
break behind it (`Names.EndsLine`). All checks of names rest on this recognizer. So the variables
and the data of a model whose names were checked, and all names of a registry, are names apart from
a line break at the end.
-/

set_option autoImplicit false

namespace BayesGraph

open Outcome

/-! ## The recognizer -/

namespace Names

/-- A letter without marks, small or capital. -/
def IsLetter (c : Char) : Prop := 'A' ≤ c ∧ c ≤ 'Z' ∨ 'a' ≤ c ∧ c ≤ 'z'

/-- What may stand behind the first letter of a name. -/
def IsNameCharacter (c : Char) : Prop :=
  IsLetter c ∨ '0' ≤ c ∧ c ≤ '9' ∨ c = '.' ∨ c = '_'

/-- The whole text is a letter, and then letters, digits, points and underscores. -/
def IsName (s : String) : Prop :=
  ∃ c rest, s.toList = c :: rest ∧ IsLetter c ∧ ∀ d ∈ rest, IsNameCharacter d

/-- The text is a name with one line break behind it. -/
def EndsLine (s : String) : Prop := ∃ w, IsName w ∧ s = w ++ "\n"

/-- What counts as alphabetic is a letter. -/
theorem isAlpha_iff {c : Char} : c.isAlpha = true ↔ IsLetter c := by
  unfold Char.isAlpha Char.isUpper Char.isLower IsLetter
  simp only [Bool.or_eq_true, Bool.and_eq_true, decide_eq_true_eq, ge_iff_le, Char.le_def]

/-- The characters behind the first one are those of names. -/
theorem isNameChar_iff {c : Char} : isNameChar c = true ↔ IsNameCharacter c := by
  unfold isNameChar IsNameCharacter Char.isAlphanum Char.isDigit
  simp only [Bool.or_eq_true, Bool.and_eq_true, decide_eq_true_eq, ge_iff_le, beq_iff_eq,
    isAlpha_iff, or_assoc, Char.le_def]

/-- A line break is no character of a name. -/
theorem not_isNameCharacter_newline : ¬ IsNameCharacter '\n' := by
  rw [← isNameChar_iff]
  decide

section

variable {s : String} {c : Char} {rest : List Char}

/-- A text with a first character is a name if this is a letter and the others are characters of
names. -/
theorem isName_iff_of_toList (hs : s.toList = c :: rest) :
    IsName s ↔ IsLetter c ∧ ∀ d ∈ rest, IsNameCharacter d := by
  unfold IsName
  rw [hs]
  constructor
  · rintro ⟨c', rest', heq, h⟩
    cases heq
    exact h
  · intro h
    exact ⟨c, rest, rfl, h⟩

/-- A text with a first character ends a line if all of it but the final line break is a name. -/
theorem endsLine_iff_of_toList (hs : s.toList = c :: rest) :
    EndsLine s ↔ ∃ front, rest = front ++ ['\n'] ∧ IsLetter c ∧
      ∀ d ∈ front, IsNameCharacter d := by
  constructor
  · rintro ⟨w, ⟨c', front, hw, hname⟩, rfl⟩
    rw [String.toList_append, hw] at hs
    obtain ⟨rfl, rfl⟩ := List.cons.inj hs
    exact ⟨front, rfl, hname⟩
  · rintro ⟨front, rfl, hname⟩
    refine ⟨String.ofList (c :: front), ⟨c, front, String.toList_ofList, hname⟩, ?_⟩
    apply String.toList_injective
    rw [hs, String.toList_append, String.toList_ofList]
    rfl

/-- A line break does not belong to a name. -/
theorem IsName.not_endsLine (h : IsName s) : ¬ EndsLine s := by
  obtain ⟨c, rest, hs, -, hrest⟩ := h
  rw [endsLine_iff_of_toList hs]
  rintro ⟨front, rfl, -, -⟩
  exact not_isNameCharacter_newline (hrest '\n' (by simp))

/-- The test of the first character and of the others says what a name is. -/
theorem isAlpha_and_all_iff :
    (c.isAlpha && rest.all isNameChar) = true ↔ IsLetter c ∧ ∀ d ∈ rest, IsNameCharacter d := by
  simp only [Bool.and_eq_true, List.all_eq_true, isAlpha_iff, isNameChar_iff]

/-- A text that does not have a line break at its end does not end a line. -/
theorem not_endsLine_of_getLast? (hlast : s.toList.getLast? ≠ some '\n') : ¬ EndsLine s := by
  rintro ⟨w, -, rfl⟩
  apply hlast
  rw [String.toList_append]
  exact List.getLast?_concat

/-- The recognizer accepts the names, and the names with one line break behind them. The cases are
its own: it drops a line break at the end before it looks at the characters. -/
theorem isIdentifier_iff : isIdentifier s = true ↔ IsName s ∨ EndsLine s := by
  unfold isIdentifier
  cases hs : s.toList with
  | nil =>
    simp only [Bool.false_eq_true, false_iff, not_or]
    constructor
    · rintro ⟨c, rest, hs', -⟩
      rw [hs] at hs'
      cases hs'
    · rintro ⟨w, -, rfl⟩
      simp [String.toList_append] at hs
  | cons c rest =>
    dsimp only
    rw [isAlpha_and_all_iff, isName_iff_of_toList hs, endsLine_iff_of_toList hs]
    by_cases hlast : rest.getLast? = some '\n'
    · rw [if_pos hlast]
      have hrest : rest.dropLast ++ ['\n'] = rest := List.dropLast_append_getLast? _ hlast
      constructor
      · intro h
        exact Or.inr ⟨rest.dropLast, hrest.symm, h⟩
      · rintro (⟨-, hall⟩ | ⟨front, hfront, h⟩)
        · exact absurd (hall '\n' (List.mem_of_getLast? hlast)) not_isNameCharacter_newline
        · rw [hfront, List.dropLast_concat]
          exact h
    · rw [if_neg hlast]
      constructor
      · exact Or.inl
      · rintro (h | ⟨front, hfront, -⟩)
        · exact h
        · rw [hfront, List.getLast?_concat] at hlast
          exact absurd rfl hlast

/-- The recognizer is right about a text exactly if this is not a name with a line break. -/
theorem isIdentifier_iff_isName_iff : (isIdentifier s = true ↔ IsName s) ↔ ¬ EndsLine s := by
  rw [isIdentifier_iff]
  constructor
  · intro h hline
    exact (h.mp (Or.inr hline)).not_endsLine hline
  · intro hline
    simp only [hline, or_false]

end

/-! ## Checked models -/

/-- The names of a model can be told apart: variables and loop variables are identifiers, none of
them is reserved, and no loop variable is defined on a left-hand side or bound by the data. -/
structure Unambiguous (m : Model) (dataNames : List String) (reserved : String → Bool)
    (used : List Datum) : Prop where
  used_eq : m.variableNames = .ok used
  identifier : ∀ name ∈ used ++ Stmt.loopVariables m.statements, isIdentifierObject name = true
  free : ∀ name ∈ used ++ Stmt.loopVariables m.statements, reserved name.shown = false
  unshadowed : ∀ name ∈ Stmt.loopVariables m.statements,
    name ∉ Stmt.targetsOfAll m.statements ∧ name.shown ∉ dataNames
  data : ∀ s ∈ dataNames, isIdentifier s = true

/-- Nothing is refused exactly if nothing is at fault. -/
theorem refuse_eq_ok_iff {ν : Type} {fault : Option ν} {cause : ν → Cause} {u : Unit} :
    refuse fault cause = .ok u ↔ fault = none := by
  unfold refuse
  cases fault <;> simp

variable {m : Model} {dataNames : List String} {reserved : String → Bool} {used : List Datum}

/-- The verdict accepts exactly the models whose names can be told apart. -/
theorem verdict_eq_ok_iff :
    verdict m dataNames reserved = .ok used ↔ Unambiguous m dataNames reserved used := by
  unfold verdict
  simp only [bind_eq_ok, lift_malformed_eq_ok, refuse_eq_ok_iff, pure_eq_ok, exists_const,
    List.find?_eq_none, Bool.not_eq_true', Bool.not_eq_false, Bool.not_eq_true,
    Bool.or_eq_false_iff, List.contains_eq_mem, decide_eq_false_iff_not, Stmt.definedNames, mem_distinct]
  constructor
  · rintro ⟨names, hnames, hidentifier, hfree, hshadow, hdata, rfl⟩
    exact ⟨hnames, hidentifier, hfree, hshadow, hdata⟩
  · intro h
    exact ⟨used, h.used_eq, h.identifier, h.free, h.unshadowed, h.data, rfl⟩

/-- The variables of a model are the names in its statements that are no loop variables. -/
theorem variableNames_eq_ok_iff : m.variableNames = .ok used ↔
    ∃ names, Stmt.variableNamesOfAll m.statements = .ok names ∧
      (∀ name ∈ names, name.isKey = true) ∧
      used = (distinct names).filter fun name =>
        !(Stmt.loopVariables m.statements).contains name := by
  unfold Model.variableNames
  simp only [bind_eq_ok]
  refine exists_congr fun names => and_congr_right fun _ => ?_
  rw [← List.all_eq_true]
  split
  · next hkeys =>
    rw [pure_eq_ok]
    simp [hkeys, eq_comm]
  · next hkeys => simp [hkeys]

/-- A variable is a name in the statements. -/
theorem mem_of_variableNames (h : m.variableNames = .ok used) {names : List Datum}
    (hnames : Stmt.variableNamesOfAll m.statements = .ok names) {name : Datum}
    (hname : name ∈ used) : name ∈ names := by
  obtain ⟨names', hnames', -, rfl⟩ := variableNames_eq_ok_iff.mp h
  cases hnames.symm.trans hnames'
  exact mem_distinct.mp (List.mem_filter.mp hname).1

/-- A name in the statements is a variable or a loop variable. -/
theorem mem_used_or_loops (h : m.variableNames = .ok used) {names : List Datum}
    (hnames : Stmt.variableNamesOfAll m.statements = .ok names) {name : Datum}
    (hname : name ∈ names) : name ∈ used ++ Stmt.loopVariables m.statements := by
  obtain ⟨names', hnames', -, rfl⟩ := variableNames_eq_ok_iff.mp h
  cases hnames.symm.trans hnames'
  by_cases hloop : name ∈ Stmt.loopVariables m.statements
  · exact List.mem_append_right _ hloop
  · apply List.mem_append_left
    simp [hname, hloop]

/-- An object is accepted as an identifier if it is a text that is a name, with or without a line
break. -/
theorem isIdentifierObject_iff {name : Datum} :
    isIdentifierObject name = true ↔ ∃ s, name = .text s ∧ (IsName s ∨ EndsLine s) := by
  cases name with
  | text s => simp [isIdentifierObject, isIdentifier_iff]
  | int _ | real _ | truth _ | nothing | list _ | record _ => simp [isIdentifierObject]

/-- If the names of a model pass the check, they can be told apart. -/
theorem exists_unambiguous_of_check (h : (check m dataNames reserved).collect.1 = .ok ()) :
    ∃ used, Unambiguous m dataNames reserved used := by
  rw [(Graph.yields_check m dataNames reserved).collect] at h
  obtain ⟨used, hused, -⟩ := bind_eq_ok.mp h
  exact ⟨used, verdict_eq_ok_iff.mp hused⟩

end Names

/-! ## Registries -/

namespace Registry

variable {α : Type} {r r' : Registry α}

/-- A name can be registered exactly if it is an accepted text that is free. -/
theorem checkName_eq_ok_iff {name : Datum} {s : String} :
    r.checkName name = .ok s ↔
      name = .text s ∧ (Names.IsName s ∨ Names.EndsLine s) ∧ r.contains s = false := by
  rw [← Names.isIdentifier_iff]
  unfold checkName
  cases name with
  | text t =>
    dsimp only
    split
    · next hidentifier =>
      split
      · next htaken =>
        constructor
        · intro h
          cases h
        · rintro ⟨heq, -, hfree⟩
          cases heq
          rw [htaken] at hfree
          cases hfree
      · next hfree =>
        rw [Bool.not_eq_true] at hfree
        constructor
        · intro h
          cases h
          exact ⟨rfl, hidentifier, hfree⟩
        · rintro ⟨heq, -, -⟩
          cases heq
          rfl
    · next hidentifier =>
      constructor
      · intro h
        cases h
      · rintro ⟨heq, hs, -⟩
        cases heq
        exact absurd hs hidentifier
  | int _ | real _ | truth _ | nothing | list _ | record _ => simp [Cause.alone]

/-- The registries at which a session can arrive: an empty one, or the one of what is built in, and
what is registered after that. -/
inductive Reachable [Scalar α] : Registry α → Prop
  | empty : Reachable empty
  | builtin : Reachable builtin
  | registerFunction {r r' : Registry α} {name : Datum} {f : Callable α} {count : Option Nat}
      (hr : Reachable r) (h : r.registerFunction name f count = .ok r') : Reachable r'
  | registerFamily {r r' : Registry α} {offer : FamilyOffer α} (hr : Reachable r)
      (h : r.registerFamily offer = .ok r') : Reachable r'

/-- A registered function has passed the checks, and is there for both kinds of evaluation. -/
theorem registerFunction_eq_ok {name : Datum} {f : Callable α} {count : Option Nat}
    (h : r.registerFunction name f count = .ok r') :
    ∃ s, r.checkName name = .ok s ∧ r' = { r with
      functions := r.functions.insert s f
      foldingFunctions := r.foldingFunctions.insert s f } := by
  simp only [Registry.registerFunction, bind_eq_ok, pure_eq_ok] at h
  obtain ⟨s, hs, ⟨⟩, -, rfl⟩ := h
  exact ⟨s, hs, rfl⟩

/-- A registered family has passed the checks of its name and of its functions. -/
theorem registerFamily_eq_ok {offer : FamilyOffer α} (h : r.registerFamily offer = .ok r') :
    ∃ f s, offer = .family f ∧ r.checkName (.text f.name) = .ok s ∧
      f.logPdf.check s (some (f.params.length + 1)) = .ok () ∧
      f.support.check s (some f.params.length) = .ok () ∧
      (∀ c ∈ f.logCdf, c.check s (some (f.params.length + 1)) = .ok ()) ∧
      r' = { r with families := r.families.insert s f } := by
  cases offer with
  | other kind => cases h
  | family f =>
    simp only [Registry.registerFamily, bind_eq_ok] at h
    obtain ⟨s, hs, ⟨⟩, hlogPdf, ⟨⟩, hsupport, h⟩ := h
    refine ⟨f, s, rfl, hs, hlogPdf, hsupport, ?_⟩
    cases hcdf : f.logCdf with
    | none =>
      simp only [hcdf, pure_eq_ok] at h
      exact ⟨by simp, h.symm⟩
    | some c =>
      simp only [hcdf, bind_eq_ok, pure_eq_ok] at h
      obtain ⟨⟨⟩, hcheck, rfl⟩ := h
      refine ⟨?_, rfl⟩
      rintro _ ⟨⟩
      exact hcheck

/-- All names that are built in are accepted. -/
theorem isIdentifier_of_builtin [Scalar α] {s : String}
    (h : (builtin : Registry α).contains s = true) : Names.isIdentifier s = true := by
  have hfamilies : (Builtin.families (α := α)).all (Names.isIdentifier ·.name) = true := by
    simp only [Builtin.families, Builtin.continuousFamilies, Builtin.discreteFamilies,
      Builtin.family, Builtin.discreteFamily, List.all_append, List.all_cons, List.all_nil]
    decide
  have hoperations :
      (Builtin.operations (α := α) .density).all (Names.isIdentifier ·.1) = true := by
    simp only [Builtin.operations, List.all_cons, List.all_nil]
    decide
  have hfunctions : (Builtin.callables (α := α) .density).all (Names.isIdentifier ·.1) = true := by
    rw [Builtin.callables, List.all_map]
    exact hoperations
  rw [List.all_eq_true] at hfamilies hfunctions
  rcases (Bool.or_eq_true _ _).mp h with h | h
  · obtain ⟨f, hf⟩ := (Table.contains_iff _ _).mp h
    obtain ⟨g, hg, heq⟩ := List.mem_map.mp (Table.mem_of_get?_ofList hf)
    cases heq
    exact hfamilies f hg
  · obtain ⟨f, hf⟩ := (Table.contains_iff _ _).mp h
    exact hfunctions _ (Table.mem_of_get?_ofList hf)

/-- All names of a registry were accepted by the check. -/
theorem Reachable.accepted [Scalar α] (hr : r.Reachable) {s : String}
    (h : r.contains s = true) : Names.IsName s ∨ Names.EndsLine s := by
  induction hr with
  | empty => cases h
  | builtin => exact Names.isIdentifier_iff.mp (isIdentifier_of_builtin h)
  | @registerFunction r r' name f count _ hregister ih =>
    obtain ⟨t, ht, rfl⟩ := registerFunction_eq_ok hregister
    obtain ⟨-, haccepted, -⟩ := checkName_eq_ok_iff.mp ht
    simp only [contains, Bool.or_eq_true, Table.contains_insert_iff] at h ih
    rcases h with h | rfl | h
    · exact ih (Or.inl h)
    · exact haccepted
    · exact ih (Or.inr h)
  | @registerFamily r r' offer _ hregister ih =>
    obtain ⟨f, t, -, ht, -, -, -, rfl⟩ := registerFamily_eq_ok hregister
    obtain ⟨-, haccepted, -⟩ := checkName_eq_ok_iff.mp ht
    simp only [contains, Bool.or_eq_true, Table.contains_insert_iff] at h ih
    rcases h with (rfl | h) | h
    · exact haccepted
    · exact ih (Or.inl h)
    · exact ih (Or.inr h)

/-- The names of a registry are those that it contains. -/
theorem mem_names_iff {s : String} : s ∈ r.names ↔ r.contains s = true := by
  unfold names contains
  rw [List.mem_append, Table.mem_keys_iff, Table.mem_keys_iff, Bool.or_eq_true]

/-! ## The main theorem -/

/-- Names are checked up to a line break behind them. The recognizer, and with it the check of a
name that is registered, accepts the names and the names that end a line; so it is right about a
text exactly if this does not end a line. The variables, the loop variables and the data of a model
that passes the check are texts of this kind, and so are all names of a registry. -/
theorem Reachable.names_accepted [Scalar α] (hr : r.Reachable) :
    (∀ s, Names.isIdentifier s = true ↔ Names.IsName s ∨ Names.EndsLine s) ∧
    (∀ s, (Names.isIdentifier s = true ↔ Names.IsName s) ↔ ¬ Names.EndsLine s) ∧
    (∀ name s, r.checkName name = .ok s ↔
      name = .text s ∧ (Names.IsName s ∨ Names.EndsLine s) ∧ r.contains s = false) ∧
    (∀ s ∈ r.names, Names.IsName s ∨ Names.EndsLine s) ∧
    ∀ m dataNames, (Names.check m dataNames r.contains).collect.1 = .ok () →
      ∃ used, m.variableNames = .ok used ∧
        (∀ name ∈ used ++ Stmt.loopVariables m.statements,
          ∃ s, name = .text s ∧ (Names.IsName s ∨ Names.EndsLine s)) ∧
        ∀ s ∈ dataNames, Names.IsName s ∨ Names.EndsLine s := by
  refine ⟨fun s => Names.isIdentifier_iff, fun s => Names.isIdentifier_iff_isName_iff,
    fun name s => checkName_eq_ok_iff, ?_, ?_⟩
  · intro s hs
    exact hr.accepted (mem_names_iff.mp hs)
  · intro m dataNames hcheck
    obtain ⟨used, h⟩ := Names.exists_unambiguous_of_check hcheck
    refine ⟨used, h.used_eq, ?_, ?_⟩
    · intro name hname
      exact Names.isIdentifierObject_iff.mp (h.identifier name hname)
    · intro s hs
      exact Names.isIdentifier_iff.mp (h.data s hs)

/-- A loop over measurements with a registered function in it. -/
def halvedModel : Model where
  statements := [.loop [] (.text "i") (.range (.literal (.int 1)) (.literal (.int 2)))
    [.assign [] (.index (.text "mu.c") [.var (.text "i")])
      (.call (.text "half_2") [.index (.text "x") [.var (.text "i")]])]]

/-- A function that fails. -/
def failing : Callable Dual where
  meaning _ _ := .error .badValue

/-- The built-in registry with one function more. -/
def halvedRegistry : Registry Dual where
  families := (builtin : Registry Dual).families
  functions := (builtin : Registry Dual).functions.insert "half_2" failing
  foldingFunctions := (builtin : Registry Dual).foldingFunctions.insert "half_2" failing

/-- A registered name is a name, and so are the names of a model that passes the check. -/
theorem names_accepted_halvedModel :
    (builtin : Registry Dual).registerFunction (.text "half_2") failing none =
      .ok halvedRegistry ∧
    halvedRegistry.Reachable ∧
    (Names.check halvedModel ["x"] halvedRegistry.contains).collect.1 = .ok () ∧
    halvedModel.variableNames = .ok [.text "mu.c", .text "x"] ∧
    ∀ s ∈ ["half_2", "mu.c", "x", "i"], Names.IsName s := by
  have hregister : (builtin : Registry Dual).registerFunction (.text "half_2") failing none =
      .ok halvedRegistry := by rfl
  have hr : halvedRegistry.Reachable := .registerFunction .builtin hregister
  have hcheck : (Names.check halvedModel ["x"] halvedRegistry.contains).collect.1 = .ok () := by rfl
  obtain ⟨-, -, -, hnames, hmodels⟩ := hr.names_accepted
  have hused : halvedModel.variableNames = .ok [.text "mu.c", .text "x"] := by rfl
  obtain ⟨used, hused', hvariables, hdata⟩ := hmodels halvedModel ["x"] hcheck
  cases hused.symm.trans hused'
  have hlast : ∀ s ∈ ["half_2", "mu.c", "x", "i"], s.toList.getLast? ≠ some '\n' := by decide
  refine ⟨hregister, hr, hcheck, hused, fun s hs => ?_⟩
  have hline : ¬ Names.EndsLine s := Names.not_endsLine_of_getLast? (hlast s hs)
  have haccepted : Names.IsName s ∨ Names.EndsLine s := by
    rcases List.mem_cons.mp hs with rfl | hs
    · exact hnames "half_2" (mem_names_iff.mpr (by rfl))
    · have hmem : .text s ∈
          [.text "mu.c", .text "x"] ++ Stmt.loopVariables halvedModel.statements :=
        List.mem_map_of_mem hs
      obtain ⟨_, heq, haccepted⟩ := hvariables _ hmem
      cases heq
      exact haccepted
  exact haccepted.resolve_right hline

/-- A name with a line break behind it is accepted, although it is no name. -/
theorem line_accepted : Names.isIdentifier "x\n" = true ∧
    (empty : Registry Dual).checkName (.text "x\n") = .ok "x\n" ∧ ¬ Names.IsName "x\n" := by
  refine ⟨by decide, by rfl, ?_⟩
  intro h
  apply h.not_endsLine
  exact ⟨"x", ⟨'x', [], by rfl, Or.inr (by decide), by simp⟩, by rfl⟩

end Registry

end BayesGraph
