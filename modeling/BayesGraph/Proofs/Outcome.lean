import Mathlib.Data.List.Perm.Basic
import BayesGraph.Log

/-!
# Success of computations

When a computation in `Except` succeeds, and what its steps gave then. The facts are stated as
equivalences, so that a success can be taken apart and put together by the same lemma; for lists
there is one fact for each of the traversals that the rest of the library uses. The facts about
lists themselves that the library needs are here, too.
-/

set_option autoImplicit false

namespace BayesGraph.Outcome

section Except

variable {ε ε' α β γ : Type}

/-- A sequence succeeds if and only if each step does in its turn. -/
@[simp] theorem bind_eq_ok {x : Except ε α} {f : α → Except ε β} {b : β} :
    (x >>= f) = .ok b ↔ ∃ a, x = .ok a ∧ f a = .ok b := by
  cases x <;> simp [bind, Except.bind]

/-- A sequence fails with the error of the step that fails. -/
theorem bind_eq_error {x : Except ε α} {f : α → Except ε β} {e : ε} :
    (x >>= f) = .error e ↔ x = .error e ∨ ∃ a, x = .ok a ∧ f a = .error e := by
  cases x <;> simp [bind, Except.bind]

/-- A pure result is the one that it is made of. -/
@[simp] theorem pure_eq_ok {a b : α} : (pure a : Except ε α) = .ok b ↔ a = b := by
  simp [pure, Except.pure]

/-- A thrown error is no result. -/
@[simp] theorem throw_ne_ok {e : ε} {a : α} : ¬ (throw e : Except ε α) = .ok a := by
  simp [throw, throwThe, MonadExceptOf.throw]

/-- A pure result is no error. -/
@[simp] theorem pure_ne_error {a : α} {e : ε} : ¬ (pure a : Except ε α) = .error e := by
  simp [pure, Except.pure]

/-- The result of a successful step enters the next one. -/
@[simp] theorem ok_bind {a : α} {f : α → Except ε β} : (Except.ok a >>= f) = f a := rfl

/-- Behind an error nothing runs. -/
@[simp] theorem error_bind {e : ε} {f : α → Except ε β} :
    ((Except.error e : Except ε α) >>= f) = .error e := rfl

/-- A mapped computation succeeds with the image of its result. -/
@[simp] theorem map_eq_ok {x : Except ε α} {f : α → β} {b : β} :
    x.map f = .ok b ↔ ∃ a, x = .ok a ∧ f a = b := by
  cases x <;> simp [Except.map]

/-- Also with the map of the functor, a computation succeeds with the image of its result. -/
@[simp] theorem functorMap_eq_ok {x : Except ε α} {f : α → β} {b : β} :
    f <$> x = .ok b ↔ ∃ a, x = .ok a ∧ f a = b := by
  cases x <;> simp [Functor.map, Except.map]

/-- The map of the functor leaves an error as it is. -/
@[simp] theorem functorMap_eq_error {x : Except ε α} {f : α → β} {e : ε} :
    f <$> x = .error e ↔ x = .error e := by
  cases x <;> simp [Functor.map, Except.map]

/-- A change of the error leaves the results as they are. -/
@[simp] theorem mapError_eq_ok {x : Except ε α} {f : ε → ε'} {a : α} :
    x.mapError f = .ok a ↔ x = .ok a := by
  cases x <;> simp [Except.mapError]

/-- The result of a success, as an option. -/
theorem toOption_eq_some {x : Except ε α} {a : α} : x.toOption = some a ↔ x = .ok a := by
  cases x <;> simp [Except.toOption]

/-- Whether a computation has a result is found out by running it. -/
instance decidableExistsResult : (x : Except ε α) → Decidable (∃ a, x = .ok a)
  | .ok a => .isTrue ⟨a, rfl⟩
  | .error _ => .isFalse (by simp)

/-- So is whether it has a result with some property. -/
instance decidableExistsOk {P : α → Prop} [DecidablePred P] :
    (x : Except ε α) → Decidable (∃ a, x = .ok a ∧ P a)
  | .ok a => decidable_of_iff (P a) (by simp)
  | .error _ => .isFalse (by simp)

/-- A sequence succeeds together with another one if its steps do, whatever they give. -/
theorem isOk_bind_congr {α' β' : Type} {x : Except ε α} {y : Except ε β} {f : α → Except ε α'}
    {g : β → Except ε β'} (h : x.isOk = y.isOk) (hfg : ∀ v w, (f v).isOk = (g w).isOk) :
    (x >>= f).isOk = (y >>= g).isOk := by
  cases x with
  | error a =>
    cases y with
    | error b => rfl
    | ok w => cases h
  | ok v =>
    cases y with
    | error b => cases h
    | ok w => exact hfg v w

/-- A success has a result. -/
theorem isOk_iff {x : Except ε α} : x.isOk = true ↔ ∃ v, x = .ok v := by
  cases x with
  | error a => simp [Except.isOk, Except.toBool]
  | ok v => simp [Except.isOk, Except.toBool]

end Except

/-! ## Lists and options, member by member -/

section Related

variable {α β : Type}

/-- Lists that are related member by member: each member of the first has a partner. -/
theorem exists_of_forall₂ {R : α → β → Prop} {xs : List α} {ys : List β}
    (h : List.Forall₂ R xs ys) {x : α} (hx : x ∈ xs) : ∃ y ∈ ys, R x y := by
  induction h with
  | nil => simp at hx
  | @cons z y zs ys hz _ ih =>
    rcases List.mem_cons.mp hx with rfl | hx
    · exact ⟨y, List.mem_cons_self, hz⟩
    · obtain ⟨w, hw, hwx⟩ := ih hx
      exact ⟨w, List.mem_cons_of_mem y hw, hwx⟩

/-- A partner for each member of a list. -/
theorem exists_forall₂ {R : α → β → Prop} {xs : List α} (h : ∀ x ∈ xs, ∃ y, R x y) :
    ∃ ys, List.Forall₂ R xs ys := by
  induction xs with
  | nil => exact ⟨[], .nil⟩
  | cons x xs ih =>
    obtain ⟨y, hy⟩ := h x List.mem_cons_self
    obtain ⟨ys, hys⟩ := ih fun z hz => h z (List.mem_cons_of_mem x hz)
    exact ⟨y :: ys, .cons hy hys⟩

/-- A function gives the first components of pairs that are listed one by one. -/
theorem filterMap_of_forall₂ {ι γ δ : Type} {f : ι → Option γ} {is : List ι} {ps : List (γ × δ)}
    (h : List.Forall₂ (fun i p => f i = some p.1) is ps) : is.filterMap f = ps.map (·.1) := by
  induction h with
  | nil => rfl
  | cons hip _ ih => rw [List.filterMap_cons_some hip, ih, List.map_cons]

/-- If a function drops no member of a list, what is related to the results stands in their
order. -/
theorem forall₂_filterMap {ι γ δ : Type} {f : ι → Option γ} {Q : γ → δ → Prop} {is : List ι}
    {ys : List δ} (h : List.Forall₂ (fun i y => ∃ c, f i = some c ∧ Q c y) is ys) :
    List.Forall₂ Q (is.filterMap f) ys := by
  induction h with
  | nil => exact .nil
  | cons hiy _ ih =>
    obtain ⟨c, hc, hQ⟩ := hiy
    rw [List.filterMap_cons_some hc]
    exact .cons hQ ih

/-- Lists that are related member by member, over a list between them. -/
theorem forall₂_trans {ι κ μ : Type} {R : ι → κ → Prop} {S : κ → μ → Prop} {T : ι → μ → Prop}
    (hT : ∀ x y z, R x y → S y z → T x z) {xs : List ι} {ys : List κ} {zs : List μ}
    (h : List.Forall₂ R xs ys) (h' : List.Forall₂ S ys zs) : List.Forall₂ T xs zs := by
  induction h generalizing zs with
  | nil =>
    cases h'
    exact .nil
  | cons hxy _ ih =>
    cases h' with
    | cons hyz hrest => exact .cons (hT _ _ _ hxy hyz) (ih hrest)

/-- A member of the second list stands beside the same thing as its partner in the first one. -/
theorem mem_zip_of_forall₂ {ι γ δ : Type} {R : γ → δ → Prop} {as : List γ} {bs : List δ}
    (h : List.Forall₂ R as bs) {is : List ι} {i : ι} {b : δ} (hb : (i, b) ∈ is.zip bs) :
    ∃ a, (i, a) ∈ is.zip as ∧ R a b := by
  induction h generalizing is with
  | nil => simp at hb
  | cons hab _ ih =>
    cases is with
    | nil => cases hb
    | cons k is =>
      rcases List.mem_cons.mp hb with heq | hb
      · cases heq
        exact ⟨_, List.mem_cons_self, hab⟩
      · obtain ⟨a, ha, hR⟩ := ih hb
        exact ⟨a, List.mem_cons_of_mem _ ha, hR⟩

/-- If every member of a list gives one term or none, the terms are those of the members that give
one. -/
theorem forall₂_filter_flatMap {ι γ δ : Type} {R : ι → γ → Prop} {T : ι → δ → Prop} {p : ι → Bool}
    {f : γ → List δ} {is : List ι} {cs : List γ} (h : List.Forall₂ R is cs)
    (hR : ∀ i c, R i c → if p i then ∃ t, f c = [t] ∧ T i t else f c = []) :
    List.Forall₂ T (is.filter p) (cs.flatMap f) := by
  induction h with
  | nil => exact .nil
  | @cons i c is cs hic _ ih =>
    have hterm := hR i c hic
    rw [List.filter_cons, List.flatMap_cons]
    split at hterm
    · next hp =>
      obtain ⟨t, ht, hTt⟩ := hterm
      rw [if_pos hp, ht]
      exact .cons hTt ih
    · next hp =>
      rw [if_neg hp, hterm]
      exact ih

/-- What is related in one way is related in every way that this implies. -/
theorem optionRel_imp {R S : α → β → Prop} {x : Option α} {y : Option β} (h : Option.Rel R x y)
    (hRS : ∀ a b, R a b → S a b) : Option.Rel S x y := by
  cases h with
  | none => exact .none
  | some h => exact .some (hRS _ _ h)

/-- Two options that are related are both there or both absent. -/
theorem isSome_eq_of_rel {R : α → β → Prop} {x : Option α} {y : Option β} (h : Option.Rel R x y) :
    x.isSome = y.isSome := by
  cases h <;> rfl

/-- The second one of two related options has a partner in the first one. -/
theorem exists_of_optionRel {R : α → β → Prop} {x : Option α} {y : Option β}
    (h : Option.Rel R x y) {b : β} (hb : b ∈ y.toList) : ∃ a ∈ x.toList, R a b := by
  cases h with
  | none => cases hb
  | @some a _ h =>
    rw [List.mem_singleton.mp hb]
    exact ⟨a, List.mem_singleton_self a, h⟩

end Related

/-! ## Lists and their parts -/

section Parts

variable {α β : Type}

/-- Whatever one partial function finds along a list, one that extends it finds too. -/
theorem filterMap_sublist_of_imp {f g : α → Option β} {xs : List α}
    (h : ∀ x ∈ xs, ∀ y, f x = some y → g x = some y) :
    (xs.filterMap f).Sublist (xs.filterMap g) := by
  induction xs with
  | nil => exact List.Sublist.refl _
  | cons x xs ih =>
    have hrest := ih fun x' hx' => h x' (List.mem_cons_of_mem x hx')
    rw [List.filterMap_cons, List.filterMap_cons]
    cases hf : f x with
    | some y =>
      rw [h x List.mem_cons_self y hf]
      exact hrest.cons_cons y
    | none =>
      cases g x with
      | none => exact hrest
      | some y => exact hrest.cons y

/-- A member of lists of one length that stand behind each other. -/
theorem getElem?_flatMap_of_length {f : α → List β} {n : Nat}
    (hf : ∀ x, (f x).length = n) {xs : List α} {j k : Nat} {x : α} (hx : xs[j]? = some x)
    (hk : k < n) : (xs.flatMap f)[j * n + k]? = (f x)[k]? := by
  induction xs generalizing j with
  | nil => simp at hx
  | cons y xs ih =>
    rw [List.flatMap_cons]
    cases j with
    | zero =>
      rw [List.getElem?_cons_zero, Option.some.injEq] at hx
      subst hx
      rw [Nat.zero_mul, Nat.zero_add, List.getElem?_append_left (by rw [hf]; exact hk)]
    | succ j =>
      rw [List.getElem?_append_right (by rw [hf, Nat.succ_mul]; omega), hf, Nat.succ_mul]
      rw [show j * n + n + k - n = j * n + k by omega]
      exact ih hx

/-- What remains of a list behind one more member. -/
theorem tail_of_drop {whole : List α} {d : Nat} {x : α} {rest : List α}
    (h : whole.drop d = x :: rest) : whole.drop (d + 1) = rest := by
  rw [← List.tail_drop, h, List.tail_cons]

/-- Lists that are combined with a third one can be combined in either order. -/
theorem zipWith_right_comm {f : α → α → α} (hf : ∀ x y z, f (f x y) z = f (f x z) y)
    (xs ys zs : List α) :
    List.zipWith f (List.zipWith f xs ys) zs = List.zipWith f (List.zipWith f xs zs) ys := by
  induction xs generalizing ys zs with
  | nil => simp
  | cons x xs ih =>
    cases ys with
    | nil => simp
    | cons y ys =>
      cases zs with
      | nil => simp
      | cons z zs =>
        simp only [List.zipWith_cons_cons, hf x y z, ih ys zs]

/-- Every member of a chain but the first comes after another one. -/
theorem exists_rel_of_isChain {rel : β → β → Prop} {x : β} {rest : List β}
    (hchain : List.IsChain rel (x :: rest)) {y : β} (hy : y ∈ rest) : ∃ w ∈ x :: rest, rel w y := by
  induction rest generalizing x with
  | nil => simp at hy
  | cons z rest ih =>
    obtain ⟨hxz, hrest⟩ := List.isChain_cons_cons.mp hchain
    rcases List.mem_cons.mp hy with rfl | hy
    · exact ⟨x, List.mem_cons_self, hxz⟩
    · obtain ⟨w, hw, hwy⟩ := ih hrest hy
      exact ⟨w, List.mem_cons_of_mem x hw, hwy⟩

/-- Texts in the same place between the same others are equal if the texts of the lists are. -/
theorem intercalate_middle {front back : List String} {s s' : String}
    (h : ", ".intercalate (front ++ s :: back) = ", ".intercalate (front ++ s' :: back)) :
    s = s' := by
  induction front with
  | nil =>
    cases back with
    | nil => simpa using h
    | cons b back =>
      simp only [List.nil_append, String.intercalate_cons_cons, String.append_left_inj] at h
      exact h
  | cons f front ih =>
    have hne (t : String) : front ++ t :: back ≠ [] := by simp
    rw [List.cons_append, List.cons_append, String.intercalate_cons_of_ne_nil (hne s),
      String.intercalate_cons_of_ne_nil (hne s'), String.append_right_inj] at h
    exact ih h

end Parts

/-! ## Lists of steps -/

section Steps

variable {ε α β : Type}

/-- A result of a list of steps has one member for each of them. -/
theorem mapM_eq_ok {f : α → Except ε β} {xs : List α} {ys : List β} :
    xs.mapM f = .ok ys ↔ List.Forall₂ (fun x y => f x = .ok y) xs ys := by
  induction xs generalizing ys with
  | nil => cases ys <;> simp
  | cons x xs ih =>
    rw [List.mapM_cons]
    simp only [bind_eq_ok, pure_eq_ok, ih]
    cases ys with
    | nil => simp
    | cons y ys => simp [List.forall₂_cons]

/-- Lists of steps that are related member by member have results that are related member by
member. -/
theorem forall₂_of_mapM {ε' α' β' : Type} {R : α → α' → Prop} {T : β → β' → Prop}
    {f : α → Except ε β} {g : α' → Except ε' β'} {xs : List α} {xs' : List α'} {ys : List β}
    {ys' : List β'} (h : List.Forall₂ R xs xs')
    (hfg : ∀ x x' y y', R x x' → f x = .ok y → g x' = .ok y' → T y y') (hys : xs.mapM f = .ok ys)
    (hys' : xs'.mapM g = .ok ys') : List.Forall₂ T ys ys' := by
  induction h generalizing ys ys' with
  | nil =>
    cases hys
    cases hys'
    exact .nil
  | cons hx _ ih =>
    simp only [List.mapM_cons, bind_eq_ok, pure_eq_ok] at hys hys'
    obtain ⟨y, hy, rest, hrest, rfl⟩ := hys
    obtain ⟨y', hy', rest', hrest', rfl⟩ := hys'
    exact .cons (hfg _ _ y y' hx hy hy') (ih hrest hrest')

/-- Every result of a list of steps comes from one of them. -/
theorem exists_of_mem_mapM {f : α → Except ε β} {xs : List α} {ys : List β}
    (h : xs.mapM f = .ok ys) {y : β} (hy : y ∈ ys) : ∃ x ∈ xs, f x = .ok y :=
  exists_of_forall₂ (mapM_eq_ok.mp h).flip hy

/-- A list of steps that succeeds has a result for each of them. -/
theorem exists_of_mapM {f : α → Except ε β} {xs : List α} {ys : List β}
    (h : xs.mapM f = .ok ys) {x : α} (hx : x ∈ xs) : ∃ y ∈ ys, f x = .ok y :=
  exists_of_forall₂ (mapM_eq_ok.mp h) hx

/-- A list of checks succeeds if and only if each of them does. -/
theorem forM_eq_ok {f : α → Except ε Unit} {xs : List α} {u : Unit} :
    xs.forM f = .ok u ↔ ∀ x ∈ xs, f x = .ok () := by
  induction xs with
  | nil => simp [List.forM_nil]
  | cons x xs ih =>
    rw [List.forM_eq_forM] at ih ⊢
    rw [List.forM_cons, bind_eq_ok, List.forall_mem_cons, ← ih]
    exact ⟨fun ⟨_, hx, hxs⟩ => ⟨hx, hxs⟩, fun ⟨hx, hxs⟩ => ⟨(), hx, hxs⟩⟩

/-- Steps that agree on the members of a list give the same results. -/
theorem mapM_congr {f g : α → Except ε β} {xs : List α} (h : ∀ x ∈ xs, f x = g x) :
    xs.mapM f = xs.mapM g := by
  induction xs with
  | nil => rfl
  | cons x xs ih =>
    have hxs := ih fun y hy => h y (List.mem_cons_of_mem x hy)
    rw [List.mapM_cons, List.mapM_cons, h x List.mem_cons_self, hxs]

/-- Steps that have all results of other steps, if these succeed. -/
theorem mapM_eq_ok_of_imp {f g : α → Except ε β} {xs : List α} {ys : List β}
    (h : xs.mapM f = .ok ys) (hfg : ∀ x ∈ xs, ∀ y, f x = .ok y → g x = .ok y) :
    xs.mapM g = .ok ys := by
  have heq : xs.mapM g = xs.mapM f := by
    refine mapM_congr fun x hx => ?_
    obtain ⟨y, -, hy⟩ := exists_of_mapM h hx
    rw [hy, hfg x hx y hy]
  rw [heq, h]

/-- A single step. -/
theorem foldlM_singleton {f : β → α → Except ε β} {x : α} {b : β} : [x].foldlM f b = f b x := by
  rw [List.foldlM_cons]
  exact bind_pure _

/-- Steps that agree on the members of a list lead to the same result. -/
theorem foldlM_congr {f g : β → α → Except ε β} {xs : List α} {b : β}
    (h : ∀ x ∈ xs, ∀ b, f b x = g b x) : xs.foldlM f b = xs.foldlM g b := by
  induction xs generalizing b with
  | nil => rfl
  | cons x xs ih =>
    rw [List.foldlM_cons, List.foldlM_cons, h x List.mem_cons_self]
    exact bind_congr fun c => ih fun y hy => h y (List.mem_cons_of_mem x hy)

/-- An optional step succeeds without a result if there is nothing to do. -/
theorem optionMapM_eq_ok {f : α → Except ε β} {x : Option α} {y : Option β} :
    x.mapM f = .ok y ↔
      (x = none ∧ y = none) ∨ ∃ a b, x = some a ∧ y = some b ∧ f a = .ok b := by
  cases x with
  | none => cases y <;> simp [Option.mapM_none]
  | some a => cases y <;> simp [Option.mapM_some]

/-- What holds at first and is kept by every step holds after all steps. -/
theorem foldlM_invariant {f : β → α → Except ε β} (P : β → Prop) {xs : List α} {b c : β}
    (h : xs.foldlM f b = .ok c) (hb : P b)
    (hstep : ∀ x ∈ xs, ∀ d e, P d → f d x = .ok e → P e) : P c := by
  induction xs generalizing b with
  | nil =>
    cases h
    exact hb
  | cons x xs ih =>
    rw [List.foldlM_cons, bind_eq_ok] at h
    obtain ⟨d, hd, h⟩ := h
    have hPd : P d := hstep x List.mem_cons_self b d hb hd
    exact ih h hPd fun y hy => hstep y (List.mem_cons_of_mem x hy)

/-- Steps one after the other: those of a front part, then the others. -/
theorem foldlM_append_eq_ok {f : β → α → Except ε β} {xs ys : List α} {b c : β} :
    (xs ++ ys).foldlM f b = .ok c ↔ ∃ d, xs.foldlM f b = .ok d ∧ ys.foldlM f d = .ok c := by
  rw [List.foldlM_append, bind_eq_ok]

/-- Steps that succeed, succeed in every order and give the same results. -/
theorem mapM_perm {f : α → Except ε β} {xs ys : List α} {as : List β}
    (hperm : xs.Perm ys) (h : xs.mapM f = .ok as) : ∃ bs, ys.mapM f = .ok bs ∧ as.Perm bs := by
  obtain ⟨bs, hbs, hsame⟩ := List.perm_comp_forall₂ hperm.symm (mapM_eq_ok.mp h)
  exact ⟨bs, mapM_eq_ok.mpr hbs, hsame.symm⟩

/-- If two steps can be exchanged, all steps can be taken in any order. -/
theorem foldlM_perm {f : β → α → Except ε β} (P : α → Prop) (I : β → Prop)
    (hkeep : ∀ b x c, I b → P x → f b x = .ok c → I c)
    (hcomm : ∀ b x y c, I b → P x → P y →
      (do f (← f b x) y) = Except.ok c → (do f (← f b y) x) = Except.ok c)
    {xs ys : List α} (hperm : xs.Perm ys) (hP : ∀ x ∈ xs, P x) {b c : β} (hb : I b)
    (h : xs.foldlM f b = .ok c) : ys.foldlM f b = .ok c := by
  induction hperm generalizing b with
  | nil => exact h
  | cons x _ ih =>
    rw [List.foldlM_cons, bind_eq_ok] at h ⊢
    obtain ⟨d, hd, h⟩ := h
    have hx := hP x List.mem_cons_self
    exact ⟨d, hd, ih (fun y hy => hP y (List.mem_cons_of_mem x hy)) (hkeep b x d hb hx hd) h⟩
  | swap x y zs =>
    have hx := hP x (List.mem_cons_of_mem y List.mem_cons_self)
    have hy := hP y List.mem_cons_self
    simp only [List.foldlM_cons, bind_eq_ok] at h ⊢
    obtain ⟨d, hd, e, he, h⟩ := h
    have hexchanged := hcomm b y x e hb hy hx (by
      rw [bind_eq_ok]
      exact ⟨d, hd, he⟩)
    rw [bind_eq_ok] at hexchanged
    obtain ⟨d', hd', he'⟩ := hexchanged
    exact ⟨d', hd', e, he', h⟩
  | trans hxy _ ih ih' =>
    exact ih' (fun y hy => hP y (hxy.mem_iff.mpr hy)) hb (ih hP hb h)

end Steps

/-! ## Success and failure as properties -/

section Properties

variable {ε α β : Type}

/-- The computation has a result. -/
def Succeeds (x : Except ε α) : Prop := ∃ a, x = .ok a

/-- A pure result is a success. -/
theorem Succeeds.pure (a : α) : Succeeds (Pure.pure a : Except ε α) := ⟨a, rfl⟩

/-- Steps one after the other succeed if both do. -/
theorem Succeeds.bind {x : Except ε α} {f : α → Except ε β} (hx : Succeeds x)
    (hf : ∀ a, Succeeds (f a)) : Succeeds (x >>= f) := by
  obtain ⟨a, rfl⟩ := hx
  exact hf a

/-- Steps along a list come to a member if those in front of it succeed. -/
def ComesTo (f : α → Except ε β) (xs : List α) (x : α) : Prop :=
  ∃ front back, xs = front ++ x :: back ∧ ∀ y ∈ front, Succeeds (f y)

/-- A member that the steps come to is one of the list. -/
theorem ComesTo.mem {f : α → Except ε β} {xs : List α} {x : α} (h : ComesTo f xs x) : x ∈ xs := by
  obtain ⟨front, back, rfl, -⟩ := h
  exact List.mem_append_right front List.mem_cons_self

/-- A list of steps fails with the error of the first member that fails. -/
theorem mapM_eq_error_iff {f : α → Except ε β} {xs : List α} {e : ε} :
    xs.mapM f = .error e ↔ ∃ x, ComesTo f xs x ∧ f x = .error e := by
  constructor
  · intro h
    induction xs with
    | nil => cases h
    | cons x xs ih =>
      rw [List.mapM_cons, bind_eq_error] at h
      rcases h with h | ⟨y, hy, h⟩
      · exact ⟨x, ⟨[], xs, rfl, by simp⟩, h⟩
      · rcases bind_eq_error.mp h with h | ⟨ys, -, h⟩
        · obtain ⟨z, ⟨front, back, rfl, hfront⟩, hz⟩ := ih h
          exact ⟨z, ⟨x :: front, back, rfl, List.forall_mem_cons.mpr ⟨⟨y, hy⟩, hfront⟩⟩, hz⟩
        · exact absurd h pure_ne_error
  · rintro ⟨x, ⟨front, back, rfl, hfront⟩, hx⟩
    induction front with
    | nil =>
      rw [List.nil_append, List.mapM_cons, hx]
      rfl
    | cons z front ih =>
      obtain ⟨⟨y, hy⟩, hfront⟩ := List.forall_mem_cons.mp hfront
      rw [List.cons_append, List.mapM_cons, hy, ok_bind, ih hfront]
      rfl

/-- A list of checks fails with the first member that does. -/
theorem forM_eq_error {f : α → Except ε Unit} {xs : List α} {x : α} {e : ε}
    (h : ComesTo f xs x) (hx : f x = .error e) : xs.forM f = .error e := by
  obtain ⟨front, back, rfl, hfront⟩ := h
  induction front with
  | nil =>
    rw [List.nil_append, List.forM_eq_forM, List.forM_cons, hx]
    rfl
  | cons y front ih =>
    obtain ⟨⟨u, hy⟩, hfront⟩ := List.forall_mem_cons.mp hfront
    rw [List.forM_eq_forM] at ih ⊢
    rw [List.cons_append, List.forM_cons, hy]
    exact ih hfront

/-- A step whose result is not used fails with its own error. -/
theorem discard_eq_error {x : Except ε α} {e : ε} :
    (do let _ ← x : Except ε Unit) = .error e ↔ x = .error e := by
  cases x <;> simp [Bind.bind, Except.bind, Pure.pure, Except.pure]

/-- Whenever the computation fails, its error has a property. -/
def FailsWith (P : ε → Prop) (x : Except ε α) : Prop := ∀ e, x = .error e → P e

namespace FailsWith

variable {P Q : ε → Prop} {x : Except ε α}

/-- A result is no failure. -/
theorem ok (a : α) : FailsWith P (Except.ok a) := by
  rintro e ⟨⟩

/-- A pure result is no failure. -/
theorem pure (a : α) : FailsWith P (Pure.pure a : Except ε α) := ok a

/-- An error fails with what holds of it. -/
theorem error {e : ε} (he : P e) : FailsWith P (Except.error e : Except ε α) := by
  rintro _ ⟨⟩
  exact he

/-- The property of the errors can be weakened. -/
theorem mono (h : FailsWith P x) (hPQ : ∀ e, P e → Q e) : FailsWith Q x :=
  fun e he => hPQ e (h e he)

/-- What the first step gave may be used behind it. -/
theorem bind_of_ok {f : α → Except ε β} (hx : FailsWith P x)
    (hf : ∀ a, x = .ok a → FailsWith P (f a)) : FailsWith P (x >>= f) := by
  intro e he
  rcases bind_eq_error.mp he with hxe | ⟨a, ha, hfe⟩
  · exact hx e hxe
  · exact hf a ha e hfe

/-- Steps one after the other fail with the errors of either. -/
theorem bind {f : α → Except ε β} (hx : FailsWith P x) (hf : ∀ a, FailsWith P (f a)) :
    FailsWith P (x >>= f) :=
  hx.bind_of_ok fun a _ => hf a

/-- A function of the result does not change the errors. -/
theorem map {f : α → β} (hx : FailsWith P x) : FailsWith P (x.map f) := by
  cases x with
  | ok a => exact ok (f a)
  | error e => exact error (hx e rfl)

/-- Steps over a list fail with the errors of one of them. -/
theorem mapM {f : β → Except ε α} {ys : List β} (h : ∀ y ∈ ys, FailsWith P (f y)) :
    FailsWith P (ys.mapM f) := by
  induction ys with
  | nil => exact pure []
  | cons y ys ih =>
    rw [List.mapM_cons]
    refine (h y List.mem_cons_self).bind fun a => ?_
    exact (ih fun z hz => h z (List.mem_cons_of_mem y hz)).bind fun as => pure (a :: as)

/-- A fold fails with the errors of one of its steps. -/
theorem foldlM {f : α → β → Except ε α} {ys : List β} (h : ∀ y ∈ ys, ∀ a, FailsWith P (f a y))
    (a : α) : FailsWith P (ys.foldlM f a) := by
  induction ys generalizing a with
  | nil => exact pure a
  | cons y ys ih =>
    rw [List.foldlM_cons]
    refine (h y List.mem_cons_self a).bind fun b => ?_
    exact ih (fun z hz => h z (List.mem_cons_of_mem y hz)) b

/-- A traversal fails with the errors of one of its steps. -/
theorem forM {f : β → Except ε Unit} {ys : List β} (h : ∀ y ∈ ys, FailsWith P (f y)) :
    FailsWith P (ys.forM f) := by
  induction ys with
  | nil => exact pure ()
  | cons y ys ih =>
    rw [List.forM_eq_forM] at ih ⊢
    rw [List.forM_cons]
    exact (h y List.mem_cons_self).bind fun _ => ih fun z hz => h z (List.mem_cons_of_mem y hz)

/-- A step for an optional value fails with its own errors. -/
theorem optionMapM {f : β → Except ε α} {y : Option β} (h : ∀ z ∈ y, FailsWith P (f z)) :
    FailsWith P (y.mapM f) := by
  cases y with
  | none => exact pure none
  | some z =>
    rw [Option.mapM_some]
    intro e he
    exact h z rfl e (functorMap_eq_error.mp he)

end FailsWith

end Properties

/-! ## Failures of one kind among all failures -/

section Lift

variable {ν : Type}

/-- An evaluation has the same results within a compilation. -/
@[simp] theorem lift_eval_eq_ok {x : Except EvalError ν} {v : ν} :
    (liftM x : Except Failure ν) = .ok v ↔ x = .ok v :=
  mapError_eq_ok

/-- A compile step has the same results within a compilation. -/
@[simp] theorem lift_compile_eq_ok {x : Except CompileError ν} {v : ν} :
    (liftM x : Except Failure ν) = .ok v ↔ x = .ok v :=
  mapError_eq_ok

/-- A step on raw data has the same results within a compilation. -/
@[simp] theorem lift_malformed_eq_ok {x : Except Malformed ν} {v : ν} :
    (liftM x : Except Failure ν) = .ok v ↔ x = .ok v :=
  mapError_eq_ok

namespace FailsWith

variable {P : Failure → Prop}

/-- The errors of an evaluation, within a compilation. -/
theorem lift_eval {x : Except EvalError ν} (h : FailsWith (fun e => P (.eval e)) x) :
    FailsWith P (liftM x : Except Failure ν) := by
  cases x with
  | ok v => exact ok v
  | error e => exact error (h e rfl)

/-- The errors of a compile step, within a compilation. -/
theorem lift_compile {x : Except CompileError ν} (h : FailsWith (fun e => P (.compile e)) x) :
    FailsWith P (liftM x : Except Failure ν) := by
  cases x with
  | ok v => exact ok v
  | error e => exact error (h e rfl)

/-- A step on raw data that succeeds does not fail within a compilation either. -/
theorem lift_malformed {x : Except Malformed ν} (h : Succeeds x) :
    FailsWith P (liftM x : Except Failure ν) := by
  obtain ⟨v, rfl⟩ := h
  exact ok v

end FailsWith

end Lift

/-! ## Computations with messages -/

section Logged

variable {ν μ : Type}

/-- After a success the next step runs, behind the messages so far. -/
theorem run_bind_of_ok {step : Logged ν} (next : ν → Logged μ) {log messages : List LogEntry}
    {v : ν} (h : step.run log = (.ok v, messages)) :
    (step >>= next).run log = (next v).run messages := by
  change (match step.run log with
    | (result, messages) => (ExceptT.bindCont next result : StateM (List LogEntry) _) messages) = _
  rw [h]
  rfl

/-- After a failure nothing runs. -/
theorem run_bind_of_error {step : Logged ν} (next : ν → Logged μ) {log messages : List LogEntry}
    {e : Failure} (h : step.run log = (.error e, messages)) :
    (step >>= next).run log = (.error e, messages) := by
  change (match step.run log with
    | (result, messages) => (ExceptT.bindCont next result : StateM (List LogEntry) _) messages) = _
  rw [h]
  rfl

/-- A sequence ends with a result if and only if each step does in its turn, behind the messages of
the steps before. -/
theorem run_bind_eq_ok {step : Logged ν} {next : ν → Logged μ} {log messages : List LogEntry}
    {w : μ} :
    (step >>= next).run log = (.ok w, messages) ↔
      ∃ v mid, step.run log = (.ok v, mid) ∧ (next v).run mid = (.ok w, messages) := by
  constructor
  · intro h
    rcases hrun : step.run log with ⟨result, mid⟩
    cases result with
    | error e =>
      rw [run_bind_of_error next hrun] at h
      cases h
    | ok v =>
      rw [run_bind_of_ok next hrun] at h
      exact ⟨v, mid, rfl, h⟩
  · rintro ⟨v, mid, hrun, h⟩
    rw [run_bind_of_ok next hrun, h]

/-- A pure step emits no message. -/
theorem run_pure_eq_ok {v w : ν} {log messages : List LogEntry} :
    (pure v : Logged ν).run log = (.ok w, messages) ↔ v = w ∧ log = messages := by
  change (Except.ok v, log) = (Except.ok w, messages) ↔ _
  simp

/-- A lifted computation emits no message. -/
theorem run_lift_eq_ok {x : Except Failure ν} {w : ν} {log messages : List LogEntry} :
    (liftM x : Logged ν).run log = (.ok w, messages) ↔ x = .ok w ∧ log = messages := by
  change (x, log) = (Except.ok w, messages) ↔ _
  simp

/-- The result of a step, which does not depend on the messages emitted before. -/
def Yields (step : Logged ν) (x : Except Failure ν) : Prop := ∀ log, (step.run log).1 = x

/-- Collecting the messages from an empty log on keeps the result. -/
theorem Yields.collect {step : Logged ν} {x : Except Failure ν} (h : Yields step x) :
    step.collect.1 = x :=
  h []

/-- The result of a sequence is that of the steps without their messages. -/
theorem yields_bind {step : Logged ν} {next : ν → Logged μ} {x : Except Failure ν}
    {f : ν → Except Failure μ} (h : Yields step x) (hnext : ∀ v, Yields (next v) (f v)) :
    Yields (step >>= next) (x >>= f) := by
  intro log
  have hx : (step.run log).1 = x := h log
  rcases hrun : step.run log with ⟨result, messages⟩
  rw [hrun] at hx
  subst hx
  cases result with
  | error e => rw [run_bind_of_error next hrun, error_bind]
  | ok v => rw [run_bind_of_ok next hrun, ok_bind, hnext v messages]

/-- A step that only emits messages has no part in the result. -/
theorem yields_after {step : Logged Unit} {next : Unit → Logged μ} {x : Except Failure μ}
    (h : Yields step (.ok ())) (hnext : Yields (next ()) x) : Yields (step >>= next) x :=
  yields_bind (f := fun _ => x) h fun _ => hnext

/-- A traversal gives the results of its steps. -/
theorem yields_mapM {step : ν → Logged μ} {f : ν → Except Failure μ}
    (h : ∀ v, Yields (step v) (f v)) (vs : List ν) : Yields (vs.mapM step) (vs.mapM f) := by
  induction vs with
  | nil => exact fun _ => rfl
  | cons v vs ih =>
    rw [List.mapM_cons, List.mapM_cons]
    exact yields_bind (h v) fun w => yields_bind ih fun ws => fun _ => rfl

/-- A traversal that only emits messages succeeds. -/
theorem yields_forM_emit (level : Level) (texts : List String) :
    Yields (texts.forM (Logged.emit level)) (.ok ()) := by
  induction texts with
  | nil => exact fun _ => rfl
  | cons text texts ih =>
    rw [List.forM_eq_forM, List.forM_cons]
    exact yields_after (fun _ => rfl) ih

/-- A pure step yields its value. -/
theorem yields_pure (v : ν) : Yields (pure v) (.ok v) := fun _ => rfl

/-- A lifted computation yields its result. -/
theorem yields_lift (x : Except Failure ν) : Yields (liftM x) x := fun _ => rfl

/-- Messages behind the last step have no part in the result. -/
theorem yields_before {x : Except Failure ν} {next : ν → Logged ν}
    (hnext : ∀ v, Yields (next v) (.ok v)) : Yields (liftM x >>= next) x := by
  have h := yields_bind (yields_lift x) hnext
  cases x with
  | error e => exact h
  | ok v => exact h

/-- Emitting a message yields nothing. -/
theorem yields_emit (level : Level) (text : String) : Yields (Logged.emit level text) (.ok ()) :=
  fun _ => rfl

/-- Whatever was emitted before, an error of the step has a property. -/
def LogsFailure (P : Failure → Prop) (step : Logged ν) : Prop :=
  ∀ log, FailsWith P (step.run log).1

namespace LogsFailure

variable {P : Failure → Prop} {step : Logged ν}

/-- A pure step logs no failure. -/
theorem pure (v : ν) : LogsFailure P (Pure.pure v : Logged ν) := fun _ => .ok v

/-- A thrown error is a failure with what holds of it. -/
theorem throw {e : Failure} (he : P e) : LogsFailure P (throw e : Logged ν) := fun _ => .error he

/-- Emitting a message logs no failure. -/
theorem emit (level : Level) (text : String) : LogsFailure P (Logged.emit level text) :=
  fun _ => .ok ()

/-- The errors of an evaluation, as a step. -/
theorem lift_eval {x : Except EvalError ν} (h : FailsWith (fun e => P (.eval e)) x) :
    LogsFailure P (liftM x : Logged ν) :=
  fun _ => FailsWith.lift_eval h

/-- Steps one after the other log the failures of either. -/
theorem bind {next : ν → Logged μ} (h : LogsFailure P step)
    (hnext : ∀ v, LogsFailure P (next v)) : LogsFailure P (step >>= next) := by
  intro log
  rcases hrun : step.run log with ⟨result, messages⟩
  cases result with
  | error e =>
    rw [run_bind_of_error next hrun]
    exact .error (h log e (by rw [hrun]))
  | ok v =>
    rw [run_bind_of_ok next hrun]
    exact hnext v messages

/-- A fold logs the failures of one of its steps. -/
theorem foldlM {f : ν → μ → Logged ν} {xs : List μ} (h : ∀ x ∈ xs, ∀ v, LogsFailure P (f v x))
    (v : ν) : LogsFailure P (xs.foldlM f v) := by
  induction xs generalizing v with
  | nil => exact pure v
  | cons x xs ih =>
    rw [List.foldlM_cons]
    refine (h x List.mem_cons_self v).bind fun w => ?_
    exact ih (fun y hy => h y (List.mem_cons_of_mem x hy)) w

end LogsFailure

end Logged

end BayesGraph.Outcome
