import BayesGraph.Proofs.IdentifierTexts
import BayesGraph.RegistryStore

/-!
# The memory of registries

The tables of registries are kept apart in memory (`Separate`): no two registries have a table in
common, and none has a table of what is built in. A registration rewrites the tables of its own
registry only (`Rewrites`), and its checks come before its changes. So it acts on the contents of
the registry as the function for values does, and if it fails the memory is as it was (`Realizes`).
A new registry gets new tables (`Extends`), which become copies of those that it is made from.
-/

set_option autoImplicit false

namespace BayesGraph

open Outcome

/-! ## Tables -/

namespace Table

variable {κ ν : Type} [DecidableEq κ] {t : Table κ ν}

/-- An insertion keeps the keys, or it adds one behind them. -/
theorem keys_insert (t : Table κ ν) (k : κ) (v : ν) :
    (t.insert k v).keys = if k ∈ t.keys then t.keys else t.keys ++ [k] := by
  unfold insert keys
  induction t.entries with
  | nil => rfl
  | cons e es ih =>
    by_cases he : e.1 = k
    · simp [insertInto, he]
    · have hk : k ≠ e.1 := fun h => he h.symm
      simp only [insertInto, if_neg he, List.map_cons, ih, List.mem_cons, hk, false_or]
      split <;> rfl

/-- No key stands in two entries. -/
def Distinct (t : Table κ ν) : Prop := t.keys.Nodup

/-- The keys stay distinct after an insertion. -/
theorem Distinct.insert (h : t.Distinct) (k : κ) (v : ν) : (t.insert k v).Distinct := by
  unfold Distinct at h ⊢
  rw [keys_insert]
  split
  · exact h
  · next hk =>
    rw [← List.concat_eq_append]
    exact List.Nodup.concat hk h

/-- A table that is made of pairs has distinct keys. -/
theorem distinct_ofList (pairs : List (κ × ν)) : (ofList pairs).Distinct := by
  have hfold : ∀ t : Table κ ν, t.Distinct →
      (pairs.foldl (fun t p => t.insert p.1 p.2) t).Distinct := by
    induction pairs with
    | nil => exact fun t ht => ht
    | cons p pairs ih => exact fun t ht => ih (t.insert p.1 p.2) (ht.insert p.1 p.2)
  exact hfold empty List.nodup_nil

/-- Entries with new keys are appended in their order. -/
theorem foldl_insert_of_nodup {es : List (κ × ν)} (h : (t.keys ++ es.map (·.1)).Nodup) :
    es.foldl (fun t e => t.insert e.1 e.2) t = ⟨t.entries ++ es⟩ := by
  induction es generalizing t with
  | nil => rw [List.append_nil]; rfl
  | cons e es ih =>
    rw [List.map_cons, List.append_cons] at h
    have hnew : t.contains e.1 = false := by
      rw [← Bool.not_eq_true, ← mem_keys_iff]
      intro hmem
      have hkeys := (List.nodup_append.mp h).1
      exact (List.nodup_append.mp hkeys).2.2 e.1 hmem e.1 List.mem_cons_self rfl
    have hinsert : t.insert e.1 e.2 = ⟨t.entries ++ [e]⟩ :=
      congrArg Table.mk (entries_insert_of_new e.2 hnew)
    rw [List.foldl_cons, hinsert, ih (by simpa [keys] using h), List.append_assoc]
    rfl

/-- Inserted into the table without entries, a table is copied. -/
theorem Distinct.update_empty (h : t.Distinct) : (Table.empty : Table κ ν).update t = t :=
  foldl_insert_of_nodup h

/-- A table that is made of pairs contains the keys of the pairs. -/
theorem contains_ofList_iff {pairs : List (κ × ν)} {k : κ} :
    (ofList pairs).contains k = true ↔ k ∈ pairs.map (·.1) := by
  unfold contains
  rw [ofList, get?_foldl_insert, get?_empty, Option.or_none, Option.isSome_map,
    List.find?_isSome]
  simp

end Table

/-! ## Memory -/

namespace Arena

variable {ν : Type} {a : Arena ν} {i j : Nat} {t : Table String ν}

/-- Writing allocates no table. -/
@[simp] theorem next_write : (a.write i t).next = a.next := List.length_set

/-- A new table is counted. -/
@[simp] theorem next_extend : a.extend.next = a.next + 1 := by simp [extend, next]

/-- What was written is read. -/
theorem read_write_self (h : i < a.next) : (a.write i t).read i = t := by
  unfold next at h
  simp [write, read, h]

/-- The other tables stay as they are when one is written. -/
theorem read_write_of_ne (h : i ≠ j) : (a.write i t).read j = a.read j := by
  simp [write, read, h]

/-- The old tables stay as they are when a new one is allocated. -/
theorem read_extend_of_lt (h : i < a.next) : a.extend.read i = a.read i := by
  unfold next at h
  simp [extend, read, List.getElem?_append_left h]

/-- A new table is empty. -/
theorem read_extend_next : a.extend.read a.next = Table.empty := by
  simp [extend, read, next]

end Arena

/-- The three tables of a registry hold each name once. -/
structure Registry.Distinct {α : Type} (r : Registry α) : Prop where
  families : r.families.Distinct
  functions : r.functions.Distinct
  foldingFunctions : r.foldingFunctions.Distinct

namespace RegistryStore

variable {α : Type} {s s' : RegistryStore α} {o o' : RegistryObject} {r : Registry α} {i : Nat}

/-- The tables of a registry are in memory, and no table is used for both kinds of functions. -/
structure Holds (s : RegistryStore α) (o : RegistryObject) : Prop where
  families : o.families < s.familyTables.next
  functions : o.functions < s.functionTables.next
  foldingFunctions : o.foldingFunctions < s.functionTables.next
  two : o.functions ≠ o.foldingFunctions

/-- Two registries have no table in common. -/
structure Apart (o o' : RegistryObject) : Prop where
  families : o.families ≠ o'.families
  functions : o.functions ≠ o'.functions
  foldingFunctions : o.foldingFunctions ≠ o'.foldingFunctions
  across : o.functions ≠ o'.foldingFunctions
  across' : o.foldingFunctions ≠ o'.functions

/-- Registries that share no table do so in either order. -/
theorem Apart.symm (h : Apart o o') : Apart o' o where
  families := h.families.symm
  functions := h.functions.symm
  foldingFunctions := h.foldingFunctions.symm
  across := h.across'.symm
  across' := h.across.symm

/-- The registries, and before them what is built in. -/
def objects (s : RegistryStore α) : List RegistryObject := builtins :: s.registries

/-- The registries have tables of their own. -/
structure Separate (s : RegistryStore α) : Prop where
  holds : ∀ o ∈ s.objects, s.Holds o
  apart : ∀ (i j : Nat) (o o' : RegistryObject), i ≠ j → s.objects[i]? = some o →
    s.objects[j]? = some o' → Apart o o'
  distinct : ∀ o ∈ s.objects, (s.view o).Distinct

/-! ### Changes of one registry -/

/-- The tables of one registry are rewritten, and all others stay as they are. -/
structure Rewrites (s s' : RegistryStore α) (o : RegistryObject) (r : Registry α) : Prop where
  registries : s'.registries = s.registries
  families : s'.familyTables.next = s.familyTables.next
  functions : s'.functionTables.next = s.functionTables.next
  view : s'.view o = r
  others : ∀ o', Apart o o' → s'.view o' = s.view o'

/-- Memory of the same size holds the same registries. -/
theorem Rewrites.holds (h : Rewrites s s' o r) (ho' : s.Holds o') : s'.Holds o' where
  families := h.families ▸ ho'.families
  functions := h.functions ▸ ho'.functions
  foldingFunctions := h.functions ▸ ho'.foldingFunctions
  two := ho'.two

/-- Rewriting one registry leaves all of them separate. -/
theorem Rewrites.separate (h : Rewrites s s' o r) (hs : s.Separate) (ho : s.objects[i]? = some o)
    (hr : r.Distinct) : s'.Separate := by
  have hobjects : s'.objects = s.objects := congrArg (builtins :: ·) h.registries
  refine ⟨fun o' ho' => ?_, ?_, fun o' ho' => ?_⟩
  · rw [hobjects] at ho'
    exact h.holds (hs.holds o' ho')
  · rw [hobjects]
    exact hs.apart
  · rw [hobjects] at ho'
    obtain ⟨j, hj⟩ := List.mem_iff_getElem?.mp ho'
    by_cases hij : i = j
    · subst hij
      obtain rfl : o = o' := Option.some.inj (ho.symm.trans hj)
      rw [h.view]
      exact hr
    · rw [h.others o' (hs.apart i j o o' hij ho hj)]
      exact hs.distinct o' ho'

/-- One of the registries is replaced. -/
theorem Rewrites.views (h : Rewrites s s' o r) (hs : s.Separate) (ho : s.registries[i]? = some o) :
    s'.views = s.views.set i r := by
  apply List.ext_getElem?
  intro j
  unfold RegistryStore.views
  rw [List.getElem?_map, List.getElem?_set, h.registries, List.length_map, List.getElem?_map]
  by_cases hij : i = j
  · subst hij
    have hi : i < s.registries.length := (List.getElem?_eq_some_iff.mp ho).1
    rw [if_pos rfl, if_pos hi, ho, Option.map_some, h.view]
  · rw [if_neg hij]
    cases hj : s.registries[j]? with
    | none => rfl
    | some o' =>
      have hapart := hs.apart (i + 1) (j + 1) o o' (by omega) ho hj
      rw [Option.map_some, Option.map_some, h.others o' hapart]

/-- What is built in stays as it is. -/
theorem Rewrites.view_builtins (h : Rewrites s s' o r) (hs : s.Separate)
    (ho : s.registries[i]? = some o) : s'.view builtins = s.view builtins :=
  h.others builtins (hs.apart (i + 1) 0 o builtins (by omega) ho rfl)

/-- A family is put into the tables of one registry only. -/
theorem rewrites_putFamily (h : s.Holds o) (name : String) (f : Family α) :
    Rewrites s (s.putFamily o.families name f) o
      { s.view o with families := (s.view o).families.insert name f } where
  registries := rfl
  families := Arena.next_write
  functions := rfl
  view := by
    unfold view putFamily
    rw [Arena.read_write_self h.families]
  others o' ho' := by
    unfold view putFamily
    rw [Arena.read_write_of_ne ho'.families]

/-- A function is put into the tables of one registry only. -/
theorem rewrites_putFunction (h : s.Holds o) (name : String) (f : Callable α) :
    Rewrites s
      ((s.putFunction o.functions name f).putFunction o.foldingFunctions name f) o
      { s.view o with
        functions := (s.view o).functions.insert name f
        foldingFunctions := (s.view o).foldingFunctions.insert name f } where
  registries := rfl
  families := rfl
  functions := by simp only [putFunction, Arena.next_write]
  view := by
    have hfolding : o.foldingFunctions <
        (s.functionTables.write o.functions
          ((s.functionTables.read o.functions).insert name f)).next := by
      rw [Arena.next_write]
      exact h.foldingFunctions
    simp only [view, putFunction, Arena.read_write_self hfolding,
      Arena.read_write_of_ne h.two.symm, Arena.read_write_of_ne h.two,
      Arena.read_write_self h.functions]
  others o' ho' := by
    simp only [view, putFunction, Arena.read_write_of_ne ho'.functions,
      Arena.read_write_of_ne ho'.foldingFunctions, Arena.read_write_of_ne ho'.across,
      Arena.read_write_of_ne ho'.across']

/-! ### New registries -/

/-- There is a registry more in memory, with tables of its own, and the others are as before. -/
structure Extends (s s' : RegistryStore α) (o : RegistryObject) : Prop where
  registries : s'.registries = s.registries
  holds : s'.Holds o
  kept : ∀ o', s.Holds o' → s'.Holds o' ∧ Apart o o' ∧ s'.view o' = s.view o'

/-- Allocating a registry extends the store by an empty one. -/
theorem extends_allocate (s : RegistryStore α) : Extends s s.allocate.2 s.allocate.1 where
  registries := rfl
  holds := by
    unfold allocate
    constructor <;> simp only [Arena.next_extend] <;> omega
  kept o' ho' := by
    obtain ⟨hfamilies, hfunctions, hfolding, htwo⟩ := ho'
    refine ⟨?_, ?_, ?_⟩
    · unfold allocate
      constructor
      · simp only [Arena.next_extend]
        omega
      · simp only [Arena.next_extend]
        omega
      · simp only [Arena.next_extend]
        omega
      · exact htwo
    · unfold allocate
      constructor <;> dsimp only <;> omega
    · have hread (a : Nat) (ha : a < s.functionTables.next) :
          s.functionTables.extend.extend.read a = s.functionTables.read a := by
        rw [Arena.read_extend_of_lt (Arena.next_extend ▸ Nat.lt_succ_of_lt ha),
          Arena.read_extend_of_lt ha]
      unfold view allocate
      dsimp only
      rw [Arena.read_extend_of_lt hfamilies, hread _ hfunctions, hread _ hfolding]

/-- New tables have no entries. -/
theorem view_allocate (s : RegistryStore α) : s.allocate.2.view s.allocate.1 = .empty := by
  have hfirst : s.functionTables.next < s.functionTables.extend.next := by simp
  have hsecond : s.functionTables.extend.extend.read (s.functionTables.next + 1) = .empty := by
    rw [← Arena.next_extend, Arena.read_extend_next]
  unfold view allocate
  dsimp only
  rw [Arena.read_extend_next, hsecond, Arena.read_extend_of_lt hfirst, Arena.read_extend_next]
  rfl

/-- A new registry that is rewritten is still a new one. -/
theorem Extends.rewrites (h : Extends s s' o) {s'' : RegistryStore α} (h' : Rewrites s' s'' o r) :
    Extends s s'' o where
  registries := h'.registries.trans h.registries
  holds := h'.holds h.holds
  kept o' ho' := by
    obtain ⟨hholds, hapart, hview⟩ := h.kept o' ho'
    exact ⟨h'.holds hholds, hapart, (h'.others o' hapart).trans hview⟩

/-- Tables without entries become copies of those of another registry. -/
theorem rewrites_update (h : s.Holds o) (hempty : s.view o = .empty) (hapart : Apart o o')
    (hdistinct : (s.view o').Distinct) :
    Rewrites s
      (((s.updateFamilies o'.families o.families).updateFunctions o'.functions
        o.functions).updateFunctions o'.foldingFunctions o.foldingFunctions) o (s.view o') where
  registries := rfl
  families := Arena.next_write
  functions := by simp only [updateFamilies, updateFunctions, Arena.next_write]
  view := by
    have hfamilies : s.familyTables.read o.families = .empty := congrArg Registry.families hempty
    have hfunctions : s.functionTables.read o.functions = .empty :=
      congrArg Registry.functions hempty
    have hfolding : s.functionTables.read o.foldingFunctions = .empty :=
      congrArg Registry.foldingFunctions hempty
    have hsize : o.foldingFunctions <
        (s.functionTables.write o.functions (s.functionTables.read o'.functions)).next := by
      rw [Arena.next_write]
      exact h.foldingFunctions
    have hcopy := hdistinct.families.update_empty
    have hcopy' := hdistinct.functions.update_empty
    have hcopy'' := hdistinct.foldingFunctions.update_empty
    unfold view at hcopy hcopy' hcopy''
    simp only [view, updateFamilies, updateFunctions, hfamilies, hfunctions, hcopy, hcopy',
      Arena.read_write_self h.families, Arena.read_write_of_ne h.two,
      Arena.read_write_of_ne hapart.across, hfolding, hcopy'', Arena.read_write_self hsize,
      Arena.read_write_of_ne h.two.symm, Arena.read_write_self h.functions]
  others p hp := by
    simp only [view, updateFamilies, updateFunctions, Arena.read_write_of_ne hp.families,
      Arena.read_write_of_ne hp.functions, Arena.read_write_of_ne hp.foldingFunctions,
      Arena.read_write_of_ne hp.across, Arena.read_write_of_ne hp.across']

/-- Behind the others, the registry has tables of its own. -/
theorem Extends.separate (h : Extends s s' o) (hs : s.Separate)
    (hdistinct : (s'.view o).Distinct) : (s'.add o).Separate := by
  have hobjects : (s'.add o).objects = s.objects ++ [o] := by
    unfold add objects
    rw [h.registries]
    rfl
  have hmem (p : RegistryObject) (hp : p ∈ s.objects ++ [o]) : p ∈ s.objects ∨ p = o := by
    simpa using hp
  -- An object of the larger store is an old one at its own place, or the new one at the last
  -- place.
  have hnew (k : Nat) (p : RegistryObject) (hp : (s.objects ++ [o])[k]? = some p) :
      s.objects[k]? = some p ∨ k = s.objects.length ∧ p = o := by
    rcases Nat.lt_trichotomy k s.objects.length with hk | rfl | hk
    · rw [List.getElem?_append_left hk] at hp
      exact Or.inl hp
    · rw [List.getElem?_concat_length] at hp
      exact Or.inr ⟨rfl, (Option.some.inj hp).symm⟩
    · have hnone : (s.objects ++ [o])[k]? = none := by
        rw [List.getElem?_eq_none_iff, List.length_append, List.length_singleton]
        exact hk
      rw [hnone] at hp
      cases hp
  have hkept (k : Nat) (p : RegistryObject) (hp : s.objects[k]? = some p) : Apart o p :=
    (h.kept p (hs.holds p (List.mem_of_getElem? hp))).2.1
  refine ⟨?_, ?_, ?_⟩
  · intro p hp
    rw [hobjects] at hp
    rcases hmem p hp with hold | rfl
    · obtain ⟨hfamilies, hfunctions, hfolding, htwo⟩ := (h.kept p (hs.holds p hold)).1
      exact ⟨hfamilies, hfunctions, hfolding, htwo⟩
    · obtain ⟨hfamilies, hfunctions, hfolding, htwo⟩ := h.holds
      exact ⟨hfamilies, hfunctions, hfolding, htwo⟩
  · rw [hobjects]
    intro i j p p' hij hp hp'
    rcases hnew i p hp with hi | ⟨hi, rfl⟩ <;> rcases hnew j p' hp' with hj | ⟨hj, rfl⟩
    · exact hs.apart i j p p' hij hi hj
    · exact (hkept i p hi).symm
    · exact hkept j p' hj
    · omega
  · intro p hp
    rw [hobjects] at hp
    change (s'.view p).Distinct
    rcases hmem p hp with hold | rfl
    · rw [(h.kept p (hs.holds p hold)).2.2]
      exact hs.distinct p hold
    · exact hdistinct

/-- The view of a new registry is added to the others. -/
theorem Extends.views (h : Extends s s' o) (hs : s.Separate) :
    (s'.add o).views = s.views ++ [s'.view o] := by
  have hold : s.registries.map s'.view = s.registries.map s.view := by
    apply List.map_congr_left
    intro p hp
    exact (h.kept p (hs.holds p (List.mem_cons_of_mem builtins hp))).2.2
  unfold RegistryStore.views add
  rw [h.registries, List.map_append, ← hold]
  rfl

/-- A new registry is there behind the others, and holds a copy of the tables that it was made
from. -/
theorem Separate.create (hs : s.Separate) (source : Option RegistryObject)
    (hsource : ∀ p ∈ source, p ∈ s.objects) :
    ∃ s', (RegistryStore.create source).run s = .ok () s' ∧ s'.Separate ∧
      s'.views = s.views ++ [source.elim .empty s.view] ∧ s'.view builtins = s.view builtins := by
  have hallocate := extends_allocate s
  have hempty := view_allocate s
  have hbuiltins : s.Holds builtins := hs.holds builtins List.mem_cons_self
  cases source with
  | none =>
    have hdistinct : (s.allocate.2.view s.allocate.1).Distinct := by
      rw [hempty]
      exact ⟨List.nodup_nil, List.nodup_nil, List.nodup_nil⟩
    have hviews := hallocate.views hs
    rw [hempty] at hviews
    exact ⟨_, rfl, hallocate.separate hs hdistinct, hviews, (hallocate.kept _ hbuiltins).2.2⟩
  | some p =>
    have hp : p ∈ s.objects := hsource p rfl
    obtain ⟨-, hapart, hview⟩ := hallocate.kept p (hs.holds p hp)
    have hdistinct := hs.distinct p hp
    rw [← hview] at hdistinct
    have hupdate := rewrites_update hallocate.holds hempty hapart hdistinct
    have hextends := hallocate.rewrites hupdate
    have hviews := hextends.views hs
    rw [← hupdate.view] at hdistinct
    rw [hupdate.view, hview] at hviews
    exact ⟨_, rfl, hextends.separate hs hdistinct, hviews, (hextends.kept _ hbuiltins).2.2⟩

/-! ### Registrations -/

/-- An action changes a registry in memory into the given one, or it fails with the given error and
changes nothing. -/
def Realizes (s : RegistryStore α) (o : RegistryObject) (action : Action α Unit)
    (result : Except CompileError (Registry α)) : Prop :=
  match result with
  | .ok r => ∃ s', action.run s = .ok () s' ∧ Rewrites s s' o r
  | .error e => action.run s = .error e s

/-- A check comes before any change. -/
theorem Realizes.checking {β : Type} {check : RegistryStore α → Except CompileError β}
    {action : β → Action α Unit} {result : β → Except CompileError (Registry α)}
    (h : ∀ b, Realizes s o (action b) (result b)) :
    Realizes s o (RegistryStore.checking check >>= action) (check s >>= result) := by
  unfold Realizes
  rw [EStateM.run_bind]
  cases hcheck : check s with
  | error e =>
    have hrun : (RegistryStore.checking check).run s = .error e s := by
      simp [RegistryStore.checking, EStateM.run, hcheck]
    rw [hrun, error_bind]
  | ok b =>
    have hrun : (RegistryStore.checking check).run s = .ok b s := by
      simp [RegistryStore.checking, EStateM.run, hcheck]
    rw [hrun, ok_bind]
    exact h b

/-- Registering a function in the store does what it does to the registry. -/
theorem realizes_registerFunction (ho : s.Holds o) (name : Datum) (f : Callable α)
    (count : Option Nat) :
    Realizes s o (RegistryStore.registerFunction o name f count)
      ((s.view o).registerFunction name f count) := by
  apply Realizes.checking
  intro text
  apply Realizes.checking
  intro _
  exact ⟨_, rfl, rewrites_putFunction ho text f⟩

/-- Registering a family in the store does what it does to the registry. -/
theorem realizes_registerFamily (ho : s.Holds o) (offer : FamilyOffer α) :
    Realizes s o (RegistryStore.registerFamily o offer) ((s.view o).registerFamily offer) := by
  cases offer with
  | other kind => exact rfl
  | family f =>
    apply Realizes.checking
    intro text
    apply Realizes.checking
    intro _
    apply Realizes.checking
    intro _
    cases f.logCdf with
    | none => exact ⟨_, rfl, rewrites_putFamily ho text f⟩
    | some c =>
      apply Realizes.checking
      intro _
      exact ⟨_, rfl, rewrites_putFamily ho text f⟩

end RegistryStore

end BayesGraph
