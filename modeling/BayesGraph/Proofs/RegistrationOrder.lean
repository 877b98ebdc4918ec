import BayesGraph.Proofs.ArrayBounds

/-!
# Registering left-hand sides in any order

A shape table is filled by one call after the other. Which calls succeed does not depend on their
order: they all do if and only if their identities are consistent with each other and with the data
(`Consistent`), and then the table at the end is the same for every order. A step lemma says when
one more call succeeds in a table that describes the calls before it; an induction along the calls
does the rest.

A table that is changed in place goes through the same checks before it is written. So a call that
fails leaves it as it was (`run_register`).

An identity that was found to lie in its array stays there while the table grows. Of an array that
the table does not know yet, nothing is checked but that the indices are positive, and a later call
may settle on a shape that is too small (`not_accommodated_later`).
-/

set_option autoImplicit false

namespace BayesGraph

open Outcome

namespace ShapeTable

/-- Registers left-hand sides one after the other, each with the text of its statement. -/
def observeAll (t : ShapeTable) (calls : List (Identity × Option String)) :
    Except CompileError ShapeTable :=
  calls.foldlM (fun t call => t.observe call.1 call.2) t

/-- Identities with positive indices, of one rank for each name, and for the names of data of the
rank of the data and within its shape. -/
structure Consistent (data : Table String (List Nat)) (ids : List Identity) : Prop where
  positive : ∀ id ∈ ids, ∀ i ∈ id.indices, 1 ≤ i
  rank : ∀ id ∈ ids, ∀ id' ∈ ids, id.name = id'.name → id.indices.length = id'.indices.length
  within : ∀ id ∈ ids, ∀ shape, data.get? id.name = some shape →
    id.indices.length = shape.length ∧
    ∀ (d n : Nat) (i : Int), id.indices[d]? = some i → shape[d]? = some n → i ≤ n

variable {data : Table String (List Nat)} {ids ids' : List Identity} {t t' : ShapeTable}
  {id : Identity} {statement : Option String}

/-- Only the identities matter, not their order. -/
theorem Consistent.of_subset (h : Consistent data ids) (hids : ∀ id ∈ ids', id ∈ ids) :
    Consistent data ids' where
  positive id hid := h.positive id (hids id hid)
  rank id hid id' hid' := h.rank id (hids id hid) id' (hids id' hid')
  within id hid := h.within id (hids id hid)

/-- Indices fit into a shape of their rank if they are positive and no greater than it. -/
theorem fits_of_within {indices : List Int} {shape : List Nat} (hpositive : ∀ i ∈ indices, 1 ≤ i)
    (hlength : indices.length = shape.length)
    (hwithin : ∀ (d n : Nat) (i : Int), indices[d]? = some i → shape[d]? = some n → i ≤ n) :
    Fits indices shape := by
  refine List.forall₂_iff_get.mpr ⟨hlength, fun d hd hd' => ⟨?_, ?_⟩⟩
  · exact hpositive _ (List.getElem_mem hd)
  · apply hwithin d
    · exact List.getElem?_eq_getElem hd
    · exact List.getElem?_eq_getElem hd'

/-! ## One more call -/

/-- The identities that a table describes are consistent. -/
theorem Describes.consistent (h : t.Describes data ids) : Consistent data ids := by
  refine ⟨fun id hid => ?_, fun id hid id' hid' hname => ?_, fun id hid shape hdata => ?_⟩
  · exact (h.accommodates hid).2.1
  · obtain ⟨hknown, -, hid⟩ := h.accommodates hid
    obtain ⟨shape, hshape⟩ := Option.isSome_iff_exists.mp hknown
    have hshape' : t.shape? id'.name = some shape := hname ▸ hshape
    rw [(hid shape hshape).1, ((h.accommodates hid').2.2 shape hshape').1]
  · apply (h.accommodates hid).2.2
    exact (h.of_data id.name shape hdata).1

/-- In a table that describes the calls so far, one more call succeeds if its identity is consistent
with theirs. -/
theorem Describes.exists_observe_of_consistent (h : t.Describes data ids)
    (hid : Consistent data (id :: ids)) (statement : Option String) :
    ∃ t', t.observe id statement = .ok t' := by
  have hpositive : ∀ i ∈ id.indices, 1 ≤ i := hid.positive id List.mem_cons_self
  have hall : id.indices.all (1 ≤ ·) = true := by simpa using hpositive
  by_cases hdata : data.contains id.name = true
  · -- an array of data: the identity has to lie within its shape
    obtain ⟨own, hown⟩ := (Table.contains_iff data id.name).mp hdata
    obtain ⟨hlength, hwithin⟩ := hid.within id List.mem_cons_self own hown
    have hshape := (h.of_data id.name own hown).1
    refine ⟨t, observe_eq_ok_iff.mpr ⟨hall, fun shape hsome => ?_, ?_⟩⟩
    · rw [hshape, Option.some.injEq] at hsome
      rw [← hsome, hlength]
    · rw [h.fixed, if_pos hdata]
      refine ⟨rfl, fun shape hsome => ?_⟩
      rw [hshape, Option.some.injEq] at hsome
      subst hsome
      exact fits_of_within hpositive hlength hwithin
  · -- any other array: its rank is that of the identities registered before
    have hnew : ¬ t.fixed.contains id.name = true := h.fixed ▸ hdata
    refine ⟨_, observe_eq_ok_iff.mpr ⟨hall, fun shape hsome => ?_, (if_neg hnew).mpr rfl⟩⟩
    have hnone : data.get? id.name = none := by
      simpa [Table.contains] using hdata
    have hextent := h.of_new id.name shape hnone hsome
    obtain ⟨id', hid', hname⟩ := hextent.used
    rw [← (hextent.fits id' hid' hname).length_eq]
    exact hid.rank id' (List.mem_cons_of_mem id hid') id List.mem_cons_self hname

/-! ## All calls -/

/-- What all calls of a run keep, from one call. -/
theorem observeAll_cons {call : Identity × Option String}
    {calls : List (Identity × Option String)} :
    t.observeAll (call :: calls) = .ok t' ↔
      ∃ mid, t.observe call.1 call.2 = .ok mid ∧ mid.observeAll calls = .ok t' := by
  unfold observeAll
  rw [List.foldlM_cons, bind_eq_ok]

/-- After a run, a table describes the identities of its calls too. -/
theorem Describes.observeAll {calls : List (Identity × Option String)} (h : t.Describes data ids)
    (hcalls : t.observeAll calls = .ok t') : t'.Describes data (calls.map (·.1) ++ ids) := by
  induction calls generalizing t ids with
  | nil =>
    cases hcalls
    exact h
  | cons call calls ih =>
    obtain ⟨mid, hmid, hrest⟩ := observeAll_cons.mp hcalls
    have hdescribes := ih (h.observe hmid) hrest
    apply hdescribes.of_mem_iff
    intro id
    simp [or_left_comm]

/-- A run succeeds if its identities are consistent with those registered before. -/
theorem Describes.exists_observeAll {calls : List (Identity × Option String)}
    (h : t.Describes data ids) (hcalls : Consistent data (calls.map (·.1) ++ ids)) :
    ∃ t', t.observeAll calls = .ok t' := by
  induction calls generalizing t ids with
  | nil => exact ⟨t, rfl⟩
  | cons call calls ih =>
    have hnext : Consistent data (call.1 :: ids) := by
      apply hcalls.of_subset
      intro id hid
      rcases List.mem_cons.mp hid with rfl | hid
      · simp
      · simp [hid]
    obtain ⟨mid, hmid⟩ := h.exists_observe_of_consistent hnext call.2
    have hrest : Consistent data (calls.map (·.1) ++ call.1 :: ids) := by
      apply hcalls.of_subset
      intro id hid
      simp only [List.mem_append, List.mem_cons, List.map_cons] at hid ⊢
      tauto
    obtain ⟨t', ht'⟩ := ih (h.observe hmid) hrest
    exact ⟨t', observeAll_cons.mpr ⟨mid, hmid, ht'⟩⟩

/-- All calls succeed exactly if their identities are consistent with the data. -/
theorem exists_observeAll_iff {calls : List (Identity × Option String)} :
    (∃ t, (ofData data).observeAll calls = .ok t) ↔ Consistent data (calls.map (·.1)) := by
  constructor
  · rintro ⟨t, ht⟩
    have hdescribes := (describes_ofData data).observeAll ht
    rw [List.append_nil] at hdescribes
    exact hdescribes.consistent
  · intro h
    apply (describes_ofData data).exists_observeAll
    rw [List.append_nil]
    exact h

/-! ## Growing tables -/

/-- What lies in its array, lies there after one more call. -/
theorem fits_observe (hobserve : t.observe id statement = .ok t') {name : String}
    {indices : List Int} {shape : List Nat} (hshape : t.shape? name = some shape)
    (hfits : Fits indices shape) :
    ∃ shape', t'.shape? name = some shape' ∧ Fits indices shape' := by
  by_cases hname : id.name = name
  · obtain ⟨-, hrank, hnext⟩ := observe_eq_ok_iff.mp hobserve
    subst hname
    split at hnext
    · rw [hnext.1]
      exact ⟨shape, hshape, hfits⟩
    · rw [hnext, hshape]
      refine ⟨join shape (id.indices.map Int.toNat), Table.get?_insert_self _ _ _, ?_⟩
      apply hfits.join_left
      rw [List.length_map, hrank shape hshape]
  · rw [shape?_observe_of_ne hobserve hname]
    exact ⟨shape, hshape, hfits⟩

/-- What lies in its array, lies there after a run. -/
theorem fits_observeAll {calls : List (Identity × Option String)}
    (hcalls : t.observeAll calls = .ok t') {name : String} {indices : List Int}
    {shape : List Nat} (hshape : t.shape? name = some shape) (hfits : Fits indices shape) :
    ∃ shape', t'.shape? name = some shape' ∧ Fits indices shape' := by
  induction calls generalizing t shape with
  | nil =>
    cases hcalls
    exact ⟨shape, hshape, hfits⟩
  | cons call calls ih =>
    obtain ⟨mid, hmid, hrest⟩ := observeAll_cons.mp hcalls
    obtain ⟨grown, hgrown, hfits⟩ := fits_observe hmid hshape hfits
    exact ih hrest hgrown hfits

/-- A run does not touch the shapes of the arrays that it does not name. -/
theorem shape?_observeAll_of_ne {calls : List (Identity × Option String)}
    (hcalls : t.observeAll calls = .ok t') {name : String}
    (hname : ∀ call ∈ calls, call.1.name ≠ name) : t'.shape? name = t.shape? name := by
  induction calls generalizing t with
  | nil =>
    cases hcalls
    rfl
  | cons call calls ih =>
    obtain ⟨mid, hmid, hrest⟩ := observeAll_cons.mp hcalls
    rw [ih hrest fun call' hcall' => hname call' (List.mem_cons_of_mem call hcall')]
    exact shape?_observe_of_ne hmid (hname call List.mem_cons_self)

/-- An identity that lies in its array lies there after a run, unless the run is the first to name
the array. -/
theorem checkBounds_observeAll {calls : List (Identity × Option String)}
    (hbounds : t.checkBounds id statement = .ok ()) (hcalls : t.observeAll calls = .ok t')
    (hknown : ∀ call ∈ calls, call.1.name = id.name → t.contains id.name = true)
    (statement' : Option String) : t'.checkBounds id statement' = .ok () := by
  obtain ⟨hpositive, hfits⟩ := checkBounds_eq_ok_iff.mp hbounds
  refine checkBounds_eq_ok_iff.mpr ⟨hpositive, fun shape' hshape' => ?_⟩
  cases hshape : t.shape? id.name with
  | some shape =>
    obtain ⟨grown, hgrown, hgrownFits⟩ := fits_observeAll hcalls hshape (hfits shape hshape)
    rw [hgrown, Option.some.injEq] at hshape'
    exact hshape' ▸ hgrownFits
  | none =>
    have hother : ∀ call ∈ calls, call.1.name ≠ id.name := by
      intro call hcall hname
      have hcontains := hknown call hcall hname
      change (t.shape? id.name).isSome = true at hcontains
      rw [hshape] at hcontains
      cases hcontains
    rw [shape?_observeAll_of_ne hcalls hother, hshape] at hshape'
    cases hshape'

/-! ## Tables that are changed in place -/

/-- A check, which reads the table. -/
def checking (check : ShapeTable → Except CompileError Unit) :
    EStateM CompileError ShapeTable Unit := fun t =>
  match check t with
  | .ok () => .ok () t
  | .error e => .error e t

/-- Registers a left-hand side in a table that is changed in place. -/
def register (id : Identity) (statement : Option String) :
    EStateM CompileError ShapeTable Unit := do
  checking (·.checkRank id statement)
  if (← get).fixed.contains id.name then
    checking (·.checkBounds id statement)
  else
    modify fun t => { t with
      shapes := t.shapes.insert id.name (grown (t.shape? id.name) id.indices) }

/-- In place, a call that succeeds has the effect of `observe`, and a call that fails has none. -/
theorem run_register (id : Identity) (statement : Option String) (t : ShapeTable) :
    (register id statement).run t =
      match t.observe id statement with
      | .ok t' => .ok () t'
      | .error e => .error e t := by
  unfold register observe
  rw [EStateM.run_bind]
  cases hrank : t.checkRank id statement with
  | error e =>
    have hrun : (checking (·.checkRank id statement)).run t = .error e t := by
      simp [checking, EStateM.run, hrank]
    rw [hrun, error_bind]
  | ok u =>
    have hrun : (checking (·.checkRank id statement)).run t = .ok () t := by
      simp [checking, EStateM.run, hrank]
    rw [hrun, ok_bind]
    dsimp only
    rw [EStateM.run_bind, EStateM.run_get]
    dsimp only
    split
    · cases hbounds : t.checkBounds id statement with
      | error e => simp [checking, EStateM.run, hbounds]
      | ok u => simp [checking, EStateM.run, hbounds, pure, Except.pure]
    · rw [EStateM.run_modify]
      cases t.shape? id.name <;> rfl

/-! ## The main theorem -/

/-- The shapes beside data that some identities require: data keeps its shapes, the other arrays
that are known are those that the identities name, and each of their dimensions is the greatest
index there. -/
structure Spans (t : ShapeTable) (data : Table String (List Nat)) (ids : List Identity) :
    Prop where
  of_data : ∀ name shape, data.get? name = some shape → t.shape? name = some shape
  known : ∀ name, data.get? name = none →
    (t.contains name = true ↔ ∃ id ∈ ids, id.name = name)
  rank : ∀ name shape, data.get? name = none → t.shape? name = some shape →
    ∀ id ∈ ids, id.name = name → id.indices.length = shape.length
  greatest : ∀ name shape, data.get? name = none → t.shape? name = some shape →
    ∀ (d n : Nat), shape[d]? = some n →
      IsGreatest {i : Int | ∃ id ∈ ids, id.name = name ∧ id.indices[d]? = some i} n

/-- A table that describes the data and the identities spans them. -/
theorem Describes.spans (h : t.Describes data ids) : t.Spans data ids where
  of_data name shape hdata := (h.of_data name shape hdata).1
  known name hdata := by
    constructor
    · intro hknown
      obtain ⟨shape, hshape⟩ := Option.isSome_iff_exists.mp hknown
      exact (h.of_new name shape hdata hshape).used
    · rintro ⟨id, hid, rfl⟩
      exact (h.accommodates hid).1
  rank name shape hdata hshape id hid hname :=
    ((h.of_new name shape hdata hshape).fits id hid hname).length_eq
  greatest name shape hdata hshape d n hn := (h.of_new name shape hdata hshape).isGreatest hn

/-- The registration of left-hand sides does not depend on their order. All calls succeed exactly if
their identities are consistent with each other and with the data. Then they succeed in every order
and with the same shapes at the end, which are the smallest ones that the identities require. In a
table that is changed in place a call has the same outcome, and one that fails, with an error of
shapes, leaves the table as it was. An identity that lies in its array lies there after any further
calls, provided that the array was known before them or is not named by them. -/
theorem observeAll_unordered (data : Table String (List Nat))
    (calls : List (Identity × Option String)) :
    ((∃ t, (ofData data).observeAll calls = .ok t) ↔ Consistent data (calls.map (·.1))) ∧
    (∀ t, (ofData data).observeAll calls = .ok t → t.Spans data (calls.map (·.1)) ∧
      ∀ calls', calls.Perm calls' → ∃ t', (ofData data).observeAll calls' = .ok t' ∧
        t'.fixed = t.fixed ∧ ∀ name, t'.shape? name = t.shape? name) ∧
    (∀ (t : ShapeTable) (id : Identity) (statement : Option String),
      (∀ t', (register id statement).run t = .ok () t' ↔ t.observe id statement = .ok t') ∧
      ∀ e t', (register id statement).run t = .error e t' →
        t' = t ∧ t.observe id statement = .error e ∧ e.cause.errorClass = .shape) ∧
    ∀ (t : ShapeTable) (id : Identity) (statement : Option String),
      t.checkBounds id statement = .ok () → ∀ more t', t.observeAll more = .ok t' →
        (∀ call ∈ more, call.1.name = id.name → t.contains id.name = true) →
        ∀ statement', t'.checkBounds id statement' = .ok () := by
  refine ⟨exists_observeAll_iff, fun t ht => ?_, fun t id statement => ?_, ?_⟩
  · have hdescribes := (describes_ofData data).observeAll ht
    rw [List.append_nil] at hdescribes
    refine ⟨hdescribes.spans, fun calls' hperm => ?_⟩
    have hids : ∀ id, id ∈ calls'.map (·.1) ↔ id ∈ calls.map (·.1) := by
      intro id
      exact (hperm.map (·.1)).symm.mem_iff
    have hconsistent : Consistent data (calls'.map (·.1)) :=
      hdescribes.consistent.of_subset fun id hid => (hids id).mp hid
    obtain ⟨t', ht'⟩ := exists_observeAll_iff.mpr hconsistent
    have hdescribes' := (describes_ofData data).observeAll ht'
    rw [List.append_nil] at hdescribes'
    refine ⟨t', ht', ?_, hdescribes'.shape?_eq hdescribes hids⟩
    rw [hdescribes.fixed, hdescribes'.fixed]
  · rw [run_register]
    cases hobserve : t.observe id statement with
    | ok next => simp
    | error e =>
      refine ⟨by simp, fun e' t' h => ?_⟩
      cases h
      exact ⟨rfl, rfl, (t.failsWith_observe id statement e hobserve).errorClass⟩
  · intro t id statement hbounds more t' hmore hknown statement'
    exact checkBounds_observeAll hbounds hmore hknown statement'

/-- The shape of the data `x`. -/
def measuredShapes : Table String (List Nat) := ⟨[("x", [3])]⟩

/-- Two left-hand sides of `mu` and one of the data. -/
def measuredCalls : List (Identity × Option String) :=
  [(⟨"mu", [1, 2]⟩, none), (⟨"mu", [4, 1]⟩, none), (⟨"x", [3]⟩, some "x[3] <- 1")]

/-- The left-hand sides of `mu` make an array of four rows and two columns in every order. The
identity `mu[4, 2]` lies in it, also when `mu[5, 1]` comes later, and `mu[1]` is refused without an
effect. -/
theorem observeAll_unordered_measured : ∃ t t' t'' e,
    (ofData measuredShapes).observeAll measuredCalls = .ok t ∧
    (ofData measuredShapes).observeAll measuredCalls.reverse = .ok t' ∧
    t'.shape? "mu" = t.shape? "mu" ∧ t.shape? "mu" = some [4, 2] ∧ t.shape? "x" = some [3] ∧
    (register ⟨"mu", [1]⟩ none).run t = .error e t ∧ e.cause.errorClass = .shape ∧
    t.checkBounds ⟨"mu", [4, 2]⟩ none = .ok () ∧
    t.observeAll [(⟨"mu", [5, 1]⟩, none)] = .ok t'' ∧
    t''.checkBounds ⟨"mu", [4, 2]⟩ none = .ok () := by
  obtain ⟨-, hrun, hregister, hbounds⟩ := observeAll_unordered measuredShapes measuredCalls
  have ht : (ofData measuredShapes).observeAll measuredCalls =
      .ok ⟨measuredShapes, ⟨[("x", [3]), ("mu", [4, 2])]⟩⟩ := by rfl
  have hperm : measuredCalls.Perm measuredCalls.reverse := (List.reverse_perm _).symm
  obtain ⟨hspans, horders⟩ := hrun _ ht
  obtain ⟨t', ht', -, hsame⟩ := horders _ hperm
  have hfail : (register ⟨"mu", [1]⟩ none).run ⟨measuredShapes, ⟨[("x", [3]), ("mu", [4, 2])]⟩⟩ =
      .error ⟨.wrongRank "mu" 2 1, some ⟨"mu", [1]⟩, none⟩
        ⟨measuredShapes, ⟨[("x", [3]), ("mu", [4, 2])]⟩⟩ := by rfl
  obtain ⟨-, -, hclass⟩ := (hregister _ _ _).2 _ _ hfail
  have hinside : checkBounds ⟨measuredShapes, ⟨[("x", [3]), ("mu", [4, 2])]⟩⟩ ⟨"mu", [4, 2]⟩ none =
      .ok () := by rfl
  have hmore : observeAll ⟨measuredShapes, ⟨[("x", [3]), ("mu", [4, 2])]⟩⟩
      [(⟨"mu", [5, 1]⟩, none)] = .ok ⟨measuredShapes, ⟨[("x", [3]), ("mu", [5, 2])]⟩⟩ := by rfl
  have hlater := hbounds _ _ _ hinside _ _ hmore (fun _ _ _ => rfl) none
  exact ⟨_, t', _, _, ht, ht', hsame "mu", rfl, hspans.of_data "x" [3] rfl, hfail, hclass, hinside,
    hmore, hlater⟩

/-- Of an array that is not known yet every positive index passes the check. After `x[2]` was
registered, `x[5]` does not pass any more. -/
theorem not_accommodated_later : ∃ t,
    (ofData Table.empty).checkBounds ⟨"x", [5]⟩ none = .ok () ∧
    (ofData Table.empty).observe ⟨"x", [2]⟩ none = .ok t ∧
    t.checkBounds ⟨"x", [5]⟩ none ≠ .ok () := by
  refine ⟨⟨Table.empty, ⟨[("x", [2])]⟩⟩, rfl, rfl, ?_⟩
  intro h
  obtain ⟨-, hfits⟩ := checkBounds_eq_ok_iff.mp h
  have hle := (hfits [2] rfl).index_le (d := 0) rfl rfl
  omega

end ShapeTable

end BayesGraph
