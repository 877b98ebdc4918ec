import Mathlib.Data.List.Nodup
import BayesGraph.Table

/-!
# Looking up and inserting

A lookup after an insertion sees the new value under its key and the old values elsewhere. A key
that is new is appended, so a table that only ever gets new keys is a prefix of what it becomes.
-/

set_option autoImplicit false

namespace BayesGraph.Table

variable {κ ν μ : Type} [DecidableEq κ]

/-- A lookup looks at the first entry, and at the others if the key is not there. -/
theorem find?_insertInto (k k' : κ) (v : ν) (es : List (κ × ν)) :
    ((insertInto k v es).find? fun e => decide (e.1 = k')).map (·.2) =
      if k = k' then some v else (es.find? fun e => decide (e.1 = k')).map (·.2) := by
  induction es with
  | nil =>
    unfold insertInto
    by_cases hk : k = k' <;> simp [hk]
  | cons e es ih =>
    unfold insertInto
    by_cases he : e.1 = k
    · subst he
      by_cases hk : e.1 = k' <;> simp [hk]
    · rw [if_neg he]
      by_cases hek : e.1 = k'
      · have hk : k ≠ k' := fun h => he (hek.trans h.symm)
        simp [hek, hk]
      · simp [hek, ih]

/-- A lookup after an insertion. -/
theorem get?_insert (t : Table κ ν) (k k' : κ) (v : ν) :
    (t.insert k v).get? k' = if k = k' then some v else t.get? k' :=
  find?_insertInto k k' v t.entries

/-- The value that was inserted is found. -/
@[simp] theorem get?_insert_self (t : Table κ ν) (k : κ) (v : ν) :
    (t.insert k v).get? k = some v := by
  simp [get?_insert]

/-- The values under other keys stay. -/
theorem get?_insert_of_ne (t : Table κ ν) {k k' : κ} (v : ν) (h : k ≠ k') :
    (t.insert k v).get? k' = t.get? k' := by
  simp [get?_insert, h]

/-- A key is present if and only if a lookup finds a value. -/
theorem contains_iff (t : Table κ ν) (k : κ) :
    t.contains k = true ↔ ∃ v, t.get? k = some v := by
  simp [contains, Option.isSome_iff_exists]

/-- A key that is not contained has no value. -/
theorem contains_eq_false_iff (t : Table κ ν) (k : κ) :
    t.contains k = false ↔ t.get? k = none := by
  simp [contains]

/-- A key that was inserted is contained. -/
theorem contains_insert_self (t : Table κ ν) (k : κ) (v : ν) :
    (t.insert k v).contains k = true :=
  (contains_iff _ k).mpr ⟨v, get?_insert_self t k v⟩

/-- The keys after an insertion are those before and the new one. -/
theorem contains_insert_iff {t : Table κ ν} {k k' : κ} {v : ν} :
    (t.insert k v).contains k' = true ↔ k' = k ∨ t.contains k' = true := by
  unfold contains
  rw [get?_insert]
  by_cases hk : k = k'
  · simp [hk]
  · simp [hk, Ne.symm hk]

/-- The keys that are present are those that the entries name. -/
theorem mem_keys_iff (t : Table κ ν) (k : κ) : k ∈ t.keys ↔ t.contains k = true := by
  unfold keys contains get?
  simp only [List.mem_map, Option.isSome_map, List.find?_isSome, decide_eq_true_eq]

/-- What a lookup finds is one of the entries. -/
theorem mem_entries_of_get? {t : Table κ ν} {k : κ} {v : ν} (h : t.get? k = some v) :
    (k, v) ∈ t.entries := by
  obtain ⟨e, he, rfl⟩ := Option.map_eq_some_iff.mp h
  have hk : e.1 = k := by simpa using List.find?_some he
  subst hk
  exact List.mem_of_find?_eq_some he

/-- A new key comes last. -/
theorem insertInto_of_new {k : κ} {v : ν} {es : List (κ × ν)} (h : ∀ e ∈ es, e.1 ≠ k) :
    insertInto k v es = es ++ [(k, v)] := by
  induction es with
  | nil => rfl
  | cons e es ih =>
    have he : e.1 ≠ k := h e List.mem_cons_self
    have hes := ih fun e' he' => h e' (List.mem_cons_of_mem e he')
    rw [insertInto, if_neg he, hes, List.cons_append]

/-- A new key is appended. -/
theorem entries_insert_of_new {t : Table κ ν} {k : κ} (v : ν) (h : t.contains k = false) :
    (t.insert k v).entries = t.entries ++ [(k, v)] := by
  refine insertInto_of_new fun e he hek => ?_
  have hmem : k ∈ t.keys := List.mem_map.mpr ⟨e, he, hek⟩
  rw [mem_keys_iff, h] at hmem
  exact Bool.false_ne_true hmem

/-- A function of the values acts on what is found. -/
@[simp] theorem get?_map (f : ν → μ) (t : Table κ ν) (k : κ) :
    (t.map f).get? k = (t.get? k).map f := by
  unfold map get?
  rw [List.find?_map]
  simp [Function.comp_def]

/-- The empty table has no values. -/
@[simp] theorem get?_empty (k : κ) : (empty : Table κ ν).get? k = none := rfl

/-! ## Tables of pairs -/

/-- After pairs have been inserted, the last one with a key tells its value. -/
theorem get?_foldl_insert (pairs : List (κ × ν)) (t : Table κ ν) (k : κ) :
    (pairs.foldl (fun t p => t.insert p.1 p.2) t).get? k =
      ((pairs.reverse.find? fun e => decide (e.1 = k)).map (·.2)).or (t.get? k) := by
  induction pairs generalizing t with
  | nil => simp
  | cons p pairs ih =>
    rw [List.foldl_cons, ih, List.reverse_cons, List.find?_append, get?_insert]
    by_cases hp : p.1 = k
    · cases pairs.reverse.find? fun e => decide (e.1 = k) <;> simp [hp]
    · cases pairs.reverse.find? fun e => decide (e.1 = k) <;> simp [hp]

/-- What is found in a table of pairs is the value of one of them. -/
theorem mem_of_get?_ofList {pairs : List (κ × ν)} {k : κ} {v : ν}
    (h : (ofList pairs).get? k = some v) : (k, v) ∈ pairs := by
  rw [ofList, get?_foldl_insert, get?_empty, Option.or_none] at h
  obtain ⟨e, he, rfl⟩ := Option.map_eq_some_iff.mp h
  have hk := List.find?_some he
  obtain rfl : e.1 = k := of_decide_eq_true hk
  exact List.mem_reverse.mp (List.mem_of_find?_eq_some he)

/-- What is found in a table that is made from a list comes from a member of the list. -/
theorem exists_of_get?_ofList_map {β : Type} {xs : List β} {entry : β → κ × ν} {k : κ} {v : ν}
    (h : (ofList (xs.map entry)).get? k = some v) : ∃ x ∈ xs, (entry x).2 = v := by
  obtain ⟨x, hx, heq⟩ := List.mem_map.mp (mem_of_get?_ofList h)
  exact ⟨x, hx, congrArg Prod.snd heq⟩

/-- A value that is the only one of its key is found. -/
theorem get?_ofList_of_mem {pairs : List (κ × ν)} {k : κ} {v : ν} (h : (k, v) ∈ pairs)
    (hunique : ∀ w, (k, w) ∈ pairs → w = v) : (ofList pairs).get? k = some v := by
  cases hget : (ofList pairs).get? k with
  | some w => rw [hunique w (mem_of_get?_ofList hget)]
  | none =>
    rw [ofList, get?_foldl_insert, get?_empty, Option.or_none, Option.map_eq_none_iff,
      List.find?_eq_none] at hget
    exact absurd (decide_eq_true rfl) (hget (k, v) (List.mem_reverse.mpr h))

/-! ## Tables that contain others -/

/-- The second table has all values of the first one, under the same keys. -/
def Le (t t' : Table κ ν) : Prop := ∀ k v, t.get? k = some v → t'.get? k = some v

/-- A table extends itself. -/
theorem Le.refl (t : Table κ ν) : t.Le t := fun _ _ h => h

/-- An extension of an extension is one. -/
theorem Le.trans {a b c : Table κ ν} (hab : a.Le b) (hbc : b.Le c) : a.Le c :=
  fun k v h => hbc k v (hab k v h)

/-- A key that has a value keeps one. -/
theorem Le.contains {t t' : Table κ ν} (h : t.Le t') {k : κ} (hk : t.contains k = true) :
    t'.contains k = true := by
  obtain ⟨v, hv⟩ := Option.isSome_iff_exists.mp hk
  exact Option.isSome_iff_exists.mpr ⟨v, h k v hv⟩

/-- A key that is not in the larger table is not in the smaller one. -/
theorem Le.get?_eq_none {t t' : Table κ ν} (h : t.Le t') {k : κ} (hk : t'.contains k = false) :
    t.get? k = none := by
  by_contra hsome
  obtain ⟨v, hv⟩ := Option.ne_none_iff_exists'.mp hsome
  rw [contains_eq_false_iff, h k v hv] at hk
  cases hk

/-- A key that is not in an extension is not in the table. -/
theorem Le.contains_eq_false {t t' : Table κ ν} (h : t.Le t') {k : κ}
    (hk : t'.contains k = false) : t.contains k = false :=
  (contains_eq_false_iff t k).mpr (h.get?_eq_none hk)

/-- A table contains another one if its entries begin with those of the other one. -/
theorem le_of_entries_prefix {t t' : Table κ ν} (h : t.entries <+: t'.entries) : t.Le t' := by
  obtain ⟨more, hmore⟩ := h
  intro k v hk
  unfold get? at hk ⊢
  obtain ⟨e, he, rfl⟩ := Option.map_eq_some_iff.mp hk
  rw [← hmore, List.find?_append, he, Option.some_or, Option.map_some]

/-- Under a new key nothing is lost. -/
theorem le_insert {t : Table κ ν} {k : κ} (v : ν) (h : t.contains k = false) :
    t.Le (t.insert k v) := by
  intro k' v' hk'
  have hne : k ≠ k' := by
    rintro rfl
    rw [(contains_eq_false_iff t k).mp h] at hk'
    cases hk'
  rw [get?_insert_of_ne t v hne, hk']

/-- A table that contains another one and one more value contains both together. -/
theorem Le.insert {t t' : Table κ ν} {k : κ} {v : ν} (h : t.Le t') (hv : t'.get? k = some v) :
    (t.insert k v).Le t' := by
  intro k' v' hk'
  rw [get?_insert] at hk'
  split at hk'
  · next hkk =>
    cases hk'
    exact hkk ▸ hv
  · exact h k' v' hk'

end BayesGraph.Table

namespace BayesGraph

variable {κ : Type} [DecidableEq κ]

/-- Leaving out repetitions leaves out no member. -/
@[simp] theorem mem_distinct {x : κ} {xs : List κ} : x ∈ distinct xs ↔ x ∈ xs := by
  induction xs with
  | nil => simp [distinct]
  | cons y ys ih =>
    by_cases hxy : x = y <;> simp [distinct, ih, hxy]

/-- The distinct members of a list are listed once. -/
theorem nodup_distinct (xs : List κ) : (distinct xs).Nodup := by
  induction xs with
  | nil => exact List.nodup_nil
  | cons y ys ih =>
    rw [distinct, List.nodup_cons]
    refine ⟨?_, ih.filter _⟩
    simp

/-- The members stand in the order in which they occur first. -/
theorem pairwise_idxOf_distinct (xs : List κ) :
    (distinct xs).Pairwise fun x y => xs.idxOf x < xs.idxOf y := by
  induction xs with
  | nil => exact List.Pairwise.nil
  | cons x xs ih =>
    rw [distinct, List.pairwise_cons]
    constructor
    · intro y hy
      have hne : y ≠ x := by simpa using (List.mem_filter.mp hy).2
      rw [List.idxOf_cons_self, List.idxOf_cons_ne _ hne.symm]
      omega
    · refine (ih.filter _).imp_of_mem ?_
      intro y z hy hz hyz
      have hy : y ≠ x := by simpa using (List.mem_filter.mp hy).2
      have hz : z ≠ x := by simpa using (List.mem_filter.mp hz).2
      rw [List.idxOf_cons_ne _ hy.symm, List.idxOf_cons_ne _ hz.symm]
      omega

end BayesGraph
