import BayesGraph.Proofs.RegistryMemory
import BayesGraph.Proofs.ScalarDistributions

/-!
# Sessions with registries

A session starts with one registry and goes on with registrations and copies, some of which fail.
The registries are apart in memory, so a call changes them as it changes registries that are values
(`Separate.perform`), and a call that fails changes nothing.

What holds of all registries of a session is then an invariant of the two registrations
(`Registry.Coherent`): the functions for the two kinds of evaluation have the same names, and are
the same functions unless they are built in; no function has the name of a family; and every family
is stored under its own name and has passed the checks.
-/

set_option autoImplicit false

namespace BayesGraph

open Outcome

/-! ## Calls -/

namespace Registry

variable {α : Type} {r r' : Registry α}

/-- The names of a registry stay distinct when a function is registered. -/
theorem Distinct.registerFunction (h : r.Distinct) {name : Datum} {f : Callable α}
    {count : Option Nat} (hregister : r.registerFunction name f count = .ok r') : r'.Distinct := by
  obtain ⟨s, -, rfl⟩ := registerFunction_eq_ok hregister
  exact ⟨h.families, h.functions.insert s f, h.foldingFunctions.insert s f⟩

/-- The names of a registry stay distinct when a family is registered. -/
theorem Distinct.registerFamily (h : r.Distinct) {offer : FamilyOffer α}
    (hregister : r.registerFamily offer = .ok r') : r'.Distinct := by
  obtain ⟨f, s, -, -, -, -, -, rfl⟩ := registerFamily_eq_ok hregister
  exact ⟨h.families.insert s f, h.functions, h.foldingFunctions⟩

/-- The registry that a session starts with. -/
def initial [Scalar α] (includeBuiltins : Bool) : Registry α :=
  if includeBuiltins then builtin else empty

/-- The built-in names are distinct. -/
theorem distinct_builtin [Scalar α] : (builtin : Registry α).Distinct :=
  ⟨Table.distinct_ofList _, Table.distinct_ofList _, Table.distinct_ofList _⟩

end Registry

namespace Call

variable {α : Type}

/-- The number of the registry whose method is called. -/
def registry : Call α → Nat
  | .registerFunction i _ _ _ => i
  | .registerFamily i _ => i
  | .copy i => i

/-- What a call of a method of a registry does to a list of registries that are values. -/
def apply (rs : List (Registry α)) (r : Registry α) :
    Call α → Except CompileError (List (Registry α))
  | .registerFunction i name f count => (r.registerFunction name f count).map (rs.set i)
  | .registerFamily i offer => (r.registerFamily offer).map (rs.set i)
  | .copy _ => .ok (rs ++ [r])

end Call

namespace RegistryStore

variable {α : Type} {s s' : RegistryStore α} {o : RegistryObject}

/-- The view of a registry is found at its number. -/
theorem getElem?_views (i : Nat) : s.views[i]? = s.registries[i]?.map s.view :=
  List.getElem?_map

/-- An action changes the registries in memory into the given ones and keeps them apart, or it fails
with the given error and changes nothing. -/
def Performs (s : RegistryStore α) (action : Action α Unit)
    (result : Except CompileError (List (Registry α))) : Prop :=
  match result with
  | .ok rs => ∃ s', action.run s = .ok () s' ∧ s'.Separate ∧ s'.views = rs ∧
      s'.view builtins = s.view builtins
  | .error e => action.run s = .error e s

/-- What changes a registry of the session, changes the session. -/
theorem Realizes.performs {action : Action α Unit} {result : Except CompileError (Registry α)}
    (h : Realizes s o action result) (hs : s.Separate) {i : Nat}
    (ho : s.registries[i]? = some o) (hdistinct : ∀ r, result = .ok r → r.Distinct) :
    Performs s action (result.map (s.views.set i)) := by
  cases result with
  | error e => exact h
  | ok r =>
    obtain ⟨s', hrun, hrewrites⟩ := h
    have hobject : s.objects[i + 1]? = some o := ho
    have hseparate := hrewrites.separate hs hobject (hdistinct r rfl)
    exact ⟨s', hrun, hseparate, hrewrites.views hs ho, hrewrites.view_builtins hs ho⟩

/-- An action on a registry runs on the object at its number, if there is one. -/
theorem run_withRegistry (i : Nat) (action : RegistryObject → Action α Unit) :
    (withRegistry i action).run s =
      match s.registries[i]? with
      | some o => (action o).run s
      | none => .ok () s := by
  unfold withRegistry
  rw [EStateM.run_bind, EStateM.run_get]
  dsimp only
  cases s.registries[i]? <;> rfl

/-- There is nothing to call without a registry. -/
theorem run_perform_of_none {call : Call α} (h : s.views[call.registry]? = none) :
    (RegistryStore.perform call).run s = .ok () s := by
  rw [getElem?_views, Option.map_eq_none_iff] at h
  cases call with
  | registerFunction _ _ _ _ | registerFamily _ _ | copy _ =>
    unfold RegistryStore.perform
    rw [run_withRegistry]
    simp only [Call.registry] at h
    rw [h]

/-- A call leaves the registries in memory as it leaves registries that are values. -/
theorem Separate.perform (hs : s.Separate) (call : Call α) {r : Registry α}
    (hr : s.views[call.registry]? = some r) :
    Performs s (RegistryStore.perform call) (call.apply s.views r) := by
  rw [getElem?_views] at hr
  obtain ⟨o, ho, rfl⟩ := Option.map_eq_some_iff.mp hr
  have hwith (action : RegistryObject → Action α Unit) :
      (withRegistry call.registry action).run s = (action o).run s := by
    rw [run_withRegistry, ho]
  have hmem : o ∈ s.objects := List.mem_cons_of_mem builtins (List.mem_of_getElem? ho)
  have hdistinct := hs.distinct o hmem
  cases call with
  | registerFunction i name f count =>
    have h := (realizes_registerFunction (hs.holds o hmem) name f count).performs hs ho
      fun r hr => hdistinct.registerFunction hr
    unfold Performs at h ⊢
    rw [← hwith (registerFunction · name f count)] at h
    exact h
  | registerFamily i offer =>
    have h := (realizes_registerFamily (hs.holds o hmem) offer).performs hs ho
      fun r hr => hdistinct.registerFamily hr
    unfold Performs at h ⊢
    rw [← hwith (registerFamily · offer)] at h
    exact h
  | copy i =>
    obtain ⟨s', hrun, h⟩ := hs.create (some o) (by simpa using hmem)
    exact ⟨s', (hwith _).trans hrun, h⟩

/-- Before there is any registry, only the tables of what is built in are there. -/
theorem separate_loaded [Scalar α] : (loaded : RegistryStore α).Separate := by
  have hobjects : (loaded : RegistryStore α).objects = [builtins] := rfl
  refine ⟨?_, ?_, ?_⟩
  · intro o ho
    rw [hobjects, List.mem_singleton] at ho
    subst ho
    exact ⟨Nat.zero_lt_one, Nat.zero_lt_two, Nat.one_lt_two, Nat.zero_ne_one⟩
  · intro i j o o' hij ho ho'
    rw [hobjects] at ho ho'
    have hi := (List.getElem?_eq_some_iff.mp ho).1
    have hj := (List.getElem?_eq_some_iff.mp ho').1
    simp only [List.length_singleton] at hi hj
    omega
  · intro o ho
    rw [hobjects, List.mem_singleton] at ho
    subst ho
    exact Registry.distinct_builtin

/-- A session starts with one registry, which is apart from what is built in. -/
theorem separate_start [Scalar α] (includeBuiltins : Bool) :
    (start includeBuiltins : RegistryStore α).Separate ∧
      (start includeBuiltins : RegistryStore α).views = [Registry.initial includeBuiltins] ∧
      (start includeBuiltins : RegistryStore α).view builtins = Registry.builtin := by
  have hcreate := separate_loaded.create (α := α) (if includeBuiltins then some builtins else none)
    (by cases includeBuiltins <;> simp [objects])
  obtain ⟨s, hrun, hseparate, hviews, hbuiltins⟩ := hcreate
  have hstart : start includeBuiltins = s := by
    unfold start left
    rw [hrun]
  rw [hstart]
  refine ⟨hseparate, ?_, hbuiltins⟩
  rw [hviews]
  cases includeBuiltins <;> rfl

end RegistryStore

/-! ## What holds of all registries -/

/-- The functions of a family can be called with its parameters. -/
structure Family.Accepted {α : Type} (f : Family α) : Prop where
  logPdf : f.logPdf.check f.name (some (f.params.length + 1)) = .ok ()
  support : f.support.check f.name (some f.params.length) = .ok ()
  logCdf : ∀ c ∈ f.logCdf, c.check f.name (some (f.params.length + 1)) = .ok ()

namespace Builtin

variable {α : Type} [Scalar α]

/-- The built-in families pass the checks of a registration. -/
theorem accepted_of_mem_families {f : Family α} (hf : f ∈ families) : f.Accepted where
  logPdf := (sound_families f hf).logPdf f.name
  support := (sound_families f hf).support.accepts f.name
  logCdf c hc := (sound_families f hf).logCdf c hc f.name

/-- No built-in function has the name of a built-in family. -/
theorem not_mem_names_of_mem_families {f : Family α} (hf : f ∈ families) (rules : Rules) :
    f.name ∉ (callables (α := α) rules).map (·.1) := by
  have hall : (families (α := α)).all fun g =>
      (operations (α := α) rules).all (·.1 != g.name) := by
    simp only [families, continuousFamilies, discreteFamilies, family, discreteFamily, operations,
      List.all_append, List.all_cons, List.all_nil]
    decide
  intro hname
  unfold callables at hname
  rw [List.map_map] at hname
  obtain ⟨e, he, heq⟩ := List.mem_map.mp hname
  have hne := List.all_eq_true.mp (List.all_eq_true.mp hall f hf) e he
  exact bne_iff_ne.mp hne heq

/-- The built-in functions for the two kinds of evaluation have the same names. -/
theorem names_callables :
    (callables (α := α) .density).map (·.1) = (callables (α := α) .folding).map (·.1) := by
  unfold callables operations
  rw [List.map_map, List.map_map]
  rfl

end Builtin

namespace Registry

variable {α : Type} {r r' r'' : Registry α}

/-- The second registry has everything that the first one has, under the same names. -/
structure Le (r r' : Registry α) : Prop where
  families : r.families.Le r'.families
  functions : r.functions.Le r'.functions
  foldingFunctions : r.foldingFunctions.Le r'.foldingFunctions

/-- A registry extends itself. -/
theorem Le.refl (r : Registry α) : r.Le r := ⟨.refl _, .refl _, .refl _⟩

/-- An extension of an extension is one. -/
theorem Le.trans (h : r.Le r') (h' : r'.Le r'') : r.Le r'' :=
  ⟨h.families.trans h'.families, h.functions.trans h'.functions,
    h.foldingFunctions.trans h'.foldingFunctions⟩

/-- What holds of the registries of a session that starts with the registry `base`. -/
structure Coherent (base r : Registry α) : Prop where
  /-- The functions for the two kinds of evaluation have the same names. -/
  names : ∀ n, r.functions.contains n = r.foldingFunctions.contains n
  /-- Functions that were not there at the start are the same for both. -/
  same : ∀ n, base.functions.contains n = false →
    r.functions.get? n = r.foldingFunctions.get? n
  disjoint : ∀ n, r.families.contains n = true → r.functions.contains n = false
  /-- Families have their own names and have passed the checks. -/
  families : ∀ n f, r.families.get? n = some f → f.name = n ∧ f.Accepted
  kept : base.Le r

/-- Exactly one name is added, and everything else is kept. -/
structure Adds (r r' : Registry α) (name : String) : Prop where
  new : r.contains name = false
  names : ∀ n, r'.contains n = true ↔ n = name ∨ r.contains n = true
  kept : r.Le r'

/-- A new function adds its name. -/
theorem Adds.insert_function {name : String} {f : Callable α} (hnew : r.contains name = false)
    (hfolding : r.foldingFunctions.contains name = false) :
    r.Adds { r with
      functions := r.functions.insert name f
      foldingFunctions := r.foldingFunctions.insert name f } name where
  new := hnew
  names n := by
    simp only [contains, Bool.or_eq_true, Table.contains_insert_iff]
    tauto
  kept := by
    have hfunctions : r.functions.contains name = false := ((Bool.or_eq_false_iff).mp hnew).2
    exact ⟨.refl _, Table.le_insert f hfunctions, Table.le_insert f hfolding⟩

/-- A new family adds its name. -/
theorem Adds.insert_family {name : String} {f : Family α} (hnew : r.contains name = false) :
    r.Adds { r with families := r.families.insert name f } name where
  new := hnew
  names n := by
    simp only [contains, Bool.or_eq_true, Table.contains_insert_iff]
    tauto
  kept := by
    have hfamilies : r.families.contains name = false := ((Bool.or_eq_false_iff).mp hnew).1
    exact ⟨Table.le_insert f hfamilies, .refl _, .refl _⟩

/-- What a registration of a function does to a coherent registry. -/
theorem Coherent.registerFunction {base : Registry α} (h : base.Coherent r) {name : Datum}
    {f : Callable α} {count : Option Nat} (hregister : r.registerFunction name f count = .ok r') :
    ∃ s, name = .text s ∧ r.Adds r' s ∧ base.Coherent r' ∧ r'.functions.get? s = some f ∧
      r'.foldingFunctions.get? s = some f := by
  obtain ⟨s, hs, rfl⟩ := registerFunction_eq_ok hregister
  obtain ⟨rfl, -, hnew⟩ := checkName_eq_ok_iff.mp hs
  obtain ⟨hfamilies, hfunctions⟩ := (Bool.or_eq_false_iff).mp hnew
  have hfolding : r.foldingFunctions.contains s = false := h.names s ▸ hfunctions
  have hadds := Adds.insert_function (f := f) hnew hfolding
  refine ⟨s, rfl, hadds, ?_, Table.get?_insert_self _ _ _, Table.get?_insert_self _ _ _⟩
  refine ⟨fun n => ?_, fun n hn => ?_, fun n hn => ?_, h.families, h.kept.trans hadds.kept⟩
  · have hnames := h.names n
    rw [Bool.eq_iff_iff] at hnames ⊢
    rw [Table.contains_insert_iff, Table.contains_insert_iff, hnames]
  · rw [Table.get?_insert, Table.get?_insert, h.same n hn]
  · have hother := h.disjoint n hn
    rw [← Bool.not_eq_true] at hother ⊢
    rw [Table.contains_insert_iff]
    rintro (rfl | hold)
    · rw [hfamilies] at hn
      cases hn
    · exact hother hold

/-- What a registration of a family does to a coherent registry. -/
theorem Coherent.registerFamily {base : Registry α} (h : base.Coherent r) {offer : FamilyOffer α}
    (hregister : r.registerFamily offer = .ok r') :
    ∃ f, offer = .family f ∧ r.Adds r' f.name ∧ base.Coherent r' ∧
      r'.families.get? f.name = some f := by
  obtain ⟨f, s, rfl, hs, hlogPdf, hsupport, hlogCdf, rfl⟩ := registerFamily_eq_ok hregister
  obtain ⟨heq, -, hnew⟩ := checkName_eq_ok_iff.mp hs
  obtain rfl : f.name = s := Datum.text.inj heq
  obtain ⟨hfamilies, hfunctions⟩ := (Bool.or_eq_false_iff).mp hnew
  have hadds := Adds.insert_family (f := f) hnew
  refine ⟨f, rfl, hadds, ?_, Table.get?_insert_self _ _ _⟩
  refine ⟨h.names, h.same, fun n hn => ?_, fun n g hg => ?_, h.kept.trans hadds.kept⟩
  · rcases Table.contains_insert_iff.mp hn with rfl | hold
    · exact hfunctions
    · exact h.disjoint n hold
  · rw [Table.get?_insert] at hg
    split at hg
    · next hname =>
      cases hg
      exact ⟨hname, hlogPdf, hsupport, hlogCdf⟩
    · exact h.families n g hg

/-- What is built in is coherent. -/
theorem coherent_builtin [Scalar α] : Coherent (builtin : Registry α) builtin := by
  have hnames (n : String) :
      (builtin : Registry α).functions.contains n =
        (builtin : Registry α).foldingFunctions.contains n := by
    rw [Bool.eq_iff_iff]
    unfold builtin
    rw [Table.contains_ofList_iff, Table.contains_ofList_iff, Builtin.names_callables]
  have hfamily (n : String) (f : Family α)
      (hf : (builtin : Registry α).families.get? n = some f) :
      f.name = n ∧ f ∈ Builtin.families := by
    obtain ⟨g, hg, heq⟩ := List.mem_map.mp (Table.mem_of_get?_ofList hf)
    obtain ⟨rfl, rfl⟩ := Prod.mk.inj heq
    exact ⟨rfl, hg⟩
  refine ⟨hnames, fun n hn => ?_, fun n hn => ?_, fun n f hf => ?_, .refl _⟩
  · have hfolding := hn
    rw [hnames n] at hfolding
    rw [(Table.contains_eq_false_iff _ _).mp hn, (Table.contains_eq_false_iff _ _).mp hfolding]
  · obtain ⟨f, hf⟩ := (Table.contains_iff _ _).mp hn
    obtain ⟨rfl, hmem⟩ := hfamily n f hf
    rw [← Bool.not_eq_true]
    intro hfunction
    exact Builtin.not_mem_names_of_mem_families hmem .density
      (Table.contains_ofList_iff.mp hfunction)
  · obtain ⟨hname, hmem⟩ := hfamily n f hf
    exact ⟨hname, Builtin.accepted_of_mem_families hmem⟩

/-- A registry at the start of a session is coherent. -/
theorem coherent_initial [Scalar α] (includeBuiltins : Bool) :
    Coherent (initial includeBuiltins : Registry α) (initial includeBuiltins) := by
  cases includeBuiltins with
  | false =>
    refine ⟨fun n => rfl, fun n _ => rfl, fun n _ => rfl, fun n f hf => ?_, .refl _⟩
    cases hf
  | true => exact coherent_builtin

/-- Each registry of the first list is still in the second one, with everything that it has. -/
def Keeps (rs rs' : List (Registry α)) : Prop :=
  ∀ (i : Nat) (r : Registry α), rs[i]? = some r → ∃ r', rs'[i]? = some r' ∧ r.Le r'

/-- A list of registries keeps itself. -/
theorem Keeps.refl (rs : List (Registry α)) : Keeps rs rs := fun _ r hr => ⟨r, hr, .refl r⟩

/-- What is kept twice is kept. -/
theorem Keeps.trans {rs rs' rs'' : List (Registry α)} (h : Keeps rs rs') (h' : Keeps rs' rs'') :
    Keeps rs rs'' := by
  intro i r hr
  obtain ⟨r', hr', hle⟩ := h i r hr
  obtain ⟨r'', hr'', hle'⟩ := h' i r' hr'
  exact ⟨r'', hr'', hle.trans hle'⟩

end Registry

/-! ## The main theorem -/

namespace Call

variable {α : Type}

/-- What a successful call changes: a registration adds one name to its own registry, and a copy
adds a registry. -/
def Changes (rs rs' : List (Registry α)) (r : Registry α) : Call α → Prop
  | .registerFunction i name f _ =>
    ∃ r' s, rs' = rs.set i r' ∧ name = .text s ∧ r.Adds r' s ∧
      r'.functions.get? s = some f ∧ r'.foldingFunctions.get? s = some f
  | .registerFamily i offer =>
    ∃ r' f, rs' = rs.set i r' ∧ offer = .family f ∧ r.Adds r' f.name ∧
      r'.families.get? f.name = some f
  | .copy _ => rs' = rs ++ [r]

/-- A call keeps registries coherent. -/
theorem coherent_apply {base r : Registry α} {rs rs' : List (Registry α)} {call : Call α}
    (hrs : ∀ r ∈ rs, base.Coherent r) (hr : rs[call.registry]? = some r)
    (h : call.apply rs r = .ok rs') : call.Changes rs rs' r ∧ ∀ r' ∈ rs', base.Coherent r' := by
  have hcoherent := hrs r (List.mem_of_getElem? hr)
  have hset (i : Nat) {r' : Registry α} (hr' : base.Coherent r') :
      ∀ q ∈ rs.set i r', base.Coherent q := by
    intro q hq
    rcases List.mem_or_eq_of_mem_set hq with hold | rfl
    · exact hrs q hold
    · exact hr'
  cases call with
  | registerFunction i name f count =>
    obtain ⟨r', hregister, rfl⟩ := map_eq_ok.mp h
    obtain ⟨s, hname, hadds, hcoherent', hlookup⟩ := hcoherent.registerFunction hregister
    exact ⟨⟨r', s, rfl, hname, hadds, hlookup⟩, hset i hcoherent'⟩
  | registerFamily i offer =>
    obtain ⟨r', hregister, rfl⟩ := map_eq_ok.mp h
    obtain ⟨f, hoffer, hadds, hcoherent', hlookup⟩ := hcoherent.registerFamily hregister
    exact ⟨⟨r', f, rfl, hoffer, hadds, hlookup⟩, hset i hcoherent'⟩
  | copy i =>
    cases h
    refine ⟨rfl, fun r' hr' => ?_⟩
    rcases List.mem_append.mp hr' with hold | hnew
    · exact hrs r' hold
    · rw [List.mem_singleton.mp hnew]
      exact hcoherent

/-- A call that fails is refused by a check of the registration. -/
theorem failsWith_apply (rs : List (Registry α)) (r : Registry α) (call : Call α) :
    FailsWith (·.cause.errorClass = .registration) (call.apply rs r) := by
  have hname (name : Datum) :
      FailsWith (·.cause.errorClass = .registration) (r.checkName name) := by
    unfold Registry.checkName
    cases name <;> dsimp only <;> repeat' split
    all_goals first
      | exact .ok _
      | exact .error rfl
  have hcheck {μ : Type} (name : String) (f : Routine μ) (count : Option Nat) :
      FailsWith (·.cause.errorClass = .registration) (f.check name count) := by
    unfold Routine.check
    repeat' split
    all_goals first
      | exact .ok _
      | exact .error rfl
  cases call with
  | registerFunction i name f count =>
    apply FailsWith.map
    refine (hname name).bind fun s => (hcheck s f count).bind fun _ => .pure _
  | registerFamily i offer =>
    apply FailsWith.map
    cases offer with
    | other kind => exact .error rfl
    | family f =>
      refine (hname _).bind fun s => (hcheck s _ _).bind fun _ => (hcheck s _ _).bind fun _ => ?_
      cases f.logCdf with
      | none => exact .pure _
      | some c => exact (hcheck s c _).bind fun _ => .pure _
  | copy i => exact .ok _

/-- What is registered stays registered. -/
theorem Changes.keeps {rs rs' : List (Registry α)} {call : Call α} {r : Registry α}
    (h : call.Changes rs rs' r) (hr : rs[call.registry]? = some r) : Registry.Keeps rs rs' := by
  intro j q hq
  have hset (i : Nat) {r' : Registry α} (hi : rs[i]? = some r) (hr' : r.Le r') :
      ∃ q', (rs.set i r')[j]? = some q' ∧ q.Le q' := by
    rw [List.getElem?_set]
    by_cases hij : i = j
    · subst hij
      obtain rfl : r = q := Option.some.inj (hi.symm.trans hq)
      rw [if_pos rfl, if_pos (List.getElem?_eq_some_iff.mp hi).1]
      exact ⟨r', rfl, hr'⟩
    · rw [if_neg hij]
      exact ⟨q, hq, .refl q⟩
  cases call with
  | registerFunction i name f count =>
    obtain ⟨r', s, rfl, -, hadds, -⟩ := h
    exact hset i hr hadds.kept
  | registerFamily i offer =>
    obtain ⟨r', f, rfl, -, hadds, -⟩ := h
    exact hset i hr hadds.kept
  | copy i =>
    obtain rfl := h
    have hj : j < rs.length := (List.getElem?_eq_some_iff.mp hq).1
    exact ⟨q, (List.getElem?_append_left hj).trans hq, .refl q⟩

end Call

namespace RegistryStore

variable {α : Type} [Scalar α] {base : Registry α} {s s' : RegistryStore α}

/-- The registries are apart and coherent, and what is built in is as it was. -/
structure Valid (base : Registry α) (s : RegistryStore α) : Prop where
  separate : s.Separate
  coherent : ∀ r ∈ s.views, base.Coherent r
  builtins : s.view builtins = .builtin

/-- What a call on a registry does: it fails and changes nothing, or it makes its changes. -/
theorem Valid.perform (h : Valid base s) (call : Call α) {r : Registry α}
    (hr : s.views[call.registry]? = some r) :
    (∃ e, (RegistryStore.perform call).run s = .error e s ∧
      e.cause.errorClass = .registration) ∨
    ∃ s', (RegistryStore.perform call).run s = .ok () s' ∧ Valid base s' ∧
      call.Changes s.views s'.views r := by
  have hperform := h.separate.perform call hr
  unfold Performs at hperform
  cases hresult : call.apply s.views r with
  | error e =>
    rw [hresult] at hperform
    exact Or.inl ⟨e, hperform, Call.failsWith_apply s.views r call e hresult⟩
  | ok rs =>
    rw [hresult] at hperform
    obtain ⟨s', hrun, hseparate, rfl, hbuiltins⟩ := hperform
    obtain ⟨hchanges, hcoherent⟩ := Call.coherent_apply h.coherent hr hresult
    exact Or.inr ⟨s', hrun, ⟨hseparate, hcoherent, hbuiltins.trans h.builtins⟩, hchanges⟩

/-- A call keeps the memory valid and what is registered. -/
theorem Valid.left_perform (h : Valid base s) (call : Call α) :
    Valid base (s.left (RegistryStore.perform call)) ∧
      Registry.Keeps s.views (s.left (RegistryStore.perform call)).views := by
  unfold left
  cases hcall : s.views[call.registry]? with
  | none =>
    rw [run_perform_of_none hcall]
    exact ⟨h, .refl s.views⟩
  | some r =>
    rcases h.perform call hcall with ⟨e, hrun, -⟩ | ⟨s', hrun, hvalid, hchanges⟩
    · rw [hrun]
      exact ⟨h, .refl s.views⟩
    · rw [hrun]
      exact ⟨hvalid, hchanges.keeps hcall⟩

/-- Calls keep the memory valid and what is registered. -/
theorem Valid.after (h : Valid base s) (calls : List (Call α)) :
    Valid base (s.after calls) ∧ Registry.Keeps s.views (s.after calls).views := by
  induction calls generalizing s with
  | nil => exact ⟨h, .refl s.views⟩
  | cons call calls ih =>
    obtain ⟨hleft, hkeeps⟩ := h.left_perform call
    obtain ⟨hafter, hkeeps'⟩ := ih hleft
    exact ⟨hafter, hkeeps.trans hkeeps'⟩

/-- At the start the store is valid. -/
theorem valid_start (includeBuiltins : Bool) :
    Valid (Registry.initial includeBuiltins) (start includeBuiltins : RegistryStore α) := by
  obtain ⟨hseparate, hviews, hbuiltins⟩ := separate_start (α := α) includeBuiltins
  refine ⟨hseparate, fun r hr => ?_, hbuiltins⟩
  rw [hviews, List.mem_singleton] at hr
  rw [hr]
  exact Registry.coherent_initial includeBuiltins

/-- The registries of a session, whatever is called. All of them are coherent: the functions for the
two kinds of evaluation have the same names, and are the same functions unless they were there at
the start; functions and families have different names; families have their own names and have
passed the checks. What is built in stays as it is, and what is registered stays registered. Of
the next call on one of the registries, either the memory is as before and the error is one of a
registration, or it makes its changes: a registration adds exactly one name to its own registry and
changes no other registry, and a copy adds a registry that is equal. -/
theorem session_coherent (includeBuiltins : Bool) (calls : List (Call α)) :
    (∀ r ∈ (session includeBuiltins calls).views, (Registry.initial includeBuiltins).Coherent r) ∧
    (session includeBuiltins calls).view builtins = (.builtin : Registry α) ∧
    (∀ more, Registry.Keeps (session includeBuiltins calls).views
      (session includeBuiltins (calls ++ more)).views) ∧
    ∀ (call : Call α) (r : Registry α),
      (session includeBuiltins calls).views[call.registry]? = some r →
      (∃ e, (perform call).run (session includeBuiltins calls) =
          .error e (session includeBuiltins calls) ∧ e.cause.errorClass = .registration) ∨
      ∃ s', (perform call).run (session includeBuiltins calls) = .ok () s' ∧
        call.Changes (session includeBuiltins calls).views s'.views r := by
  obtain ⟨hvalid, -⟩ := (valid_start (α := α) includeBuiltins).after calls
  refine ⟨hvalid.coherent, hvalid.builtins, fun more => ?_, fun call r hr => ?_⟩
  · obtain ⟨-, hkeeps⟩ := hvalid.after more
    have hsplit : session includeBuiltins (calls ++ more) =
        (session includeBuiltins calls).after more := List.foldl_append
    rw [hsplit]
    exact hkeeps
  · rcases hvalid.perform call hr with hfail | ⟨s', hrun, -, hchanges⟩
    · exact Or.inl hfail
    · exact Or.inr ⟨s', hrun, hchanges⟩

/-- A function is registered, the registry is copied, and the copy gets another function. -/
def copyingCalls : List (Call Dual) :=
  [.registerFunction 0 (.text "half") Registry.failing none, .copy 0,
    .registerFunction 1 (.text "third") Registry.failing none]

/-- The copy has both functions, also for folding. The first registry has one of them, and refuses
to register it again. -/
theorem session_coherent_copyingCalls :
    ((session true copyingCalls).views.map fun r =>
      (r.foldingFunctions.contains "half", r.functions.contains "third")) =
        [(true, false), (true, true)] ∧
    (∀ r ∈ (session true copyingCalls).views,
      r.functions.get? "half" = r.foldingFunctions.get? "half") ∧
    ∃ e, (perform (.registerFunction 0 (.text "half") Registry.failing none)).run
        (session true copyingCalls) = .error e (session true copyingCalls) ∧
      e.cause.errorClass = .registration := by
  obtain ⟨hcoherent, -, -, hcall⟩ := session_coherent (α := Dual) true copyingCalls
  refine ⟨rfl, fun r hr => (hcoherent r hr).same "half" rfl, ?_⟩
  obtain ⟨r, hr⟩ : ∃ r, (session true copyingCalls).views[0]? = some r := ⟨_, rfl⟩
  have htaken : (session true copyingCalls).views[0]?.map (·.contains "half") = some true := by rfl
  rw [hr, Option.map_some, Option.some.injEq] at htaken
  have hrefused := hcall (.registerFunction 0 (.text "half") Registry.failing none) r hr
  rcases hrefused with hfail | ⟨s', -, r', s, -, hname, hadds, -⟩
  · exact hfail
  · obtain rfl : "half" = s := Datum.text.inj hname
    rw [hadds.new] at htaken
    cases htaken

end RegistryStore

end BayesGraph
