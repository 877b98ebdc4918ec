import BayesGraph.Tensor
import BayesGraph.Proofs.Outcome

/-!
# Broadcasting in several steps

An array that is broadcast to a shape and from there to another one has been broadcast to the last
shape at once (`stretch_stretch`), and entries can be combined before or after they are broadcast
(`stretch_zipWith`). So the result of several additions of arrays does not depend on how they were
broadcast on the way, and neither does the common shape: `zipWith?_right_comm` says that two arrays
can be combined with a third one in either order.
-/

set_option autoImplicit false

namespace BayesGraph.Tensor

variable {α β γ : Type}

/-! ## Pieces -/

/-- Cutting a list commutes with a function of its members. -/
theorem pieces_map (f : α → β) (n size : Nat) (xs : List α) :
    pieces n size (xs.map f) = (pieces n size xs).map (List.map f) := by
  induction n generalizing xs with
  | zero => rfl
  | succ n ih =>
    rw [pieces, pieces, List.map_cons, ← List.map_take, ← List.map_drop, ih]

/-- Lists of one length that are put behind each other are cut into the same lists. -/
theorem pieces_flatten {size : Nat} {xss : List (List α)} (h : ∀ xs ∈ xss, xs.length = size) :
    pieces xss.length size xss.flatten = xss := by
  induction xss with
  | nil => rfl
  | cons xs xss ih =>
    have hhead : xs.length = size := h xs List.mem_cons_self
    have hrest := ih fun ys hys => h ys (List.mem_cons_of_mem xs hys)
    rw [List.length_cons, pieces, List.flatten_cons]
    subst hhead
    rw [List.take_left, List.drop_left, hrest]

/-- A list of the given size is a single piece. -/
theorem pieces_one {size : Nat} {xs : List α} (h : xs.length = size) : pieces 1 size xs = [xs] := by
  subst h
  simp [pieces]

/-! ## Entries -/

/-- Broadcasting commutes with a function of the entries. -/
theorem stretch_map (f : α → β) (s t : List Nat) (xs : List α) :
    stretch s t (xs.map f) = (stretch s t xs).map f := by
  induction s generalizing t xs with
  | nil => simp [stretch]
  | cons m s ih =>
    cases t with
    | nil => simp [stretch]
    | cons n t =>
      have hinner : (pieces m (volume s) (xs.map f)).map (stretch s t) =
          ((pieces m (volume s) xs).map (stretch s t)).map (List.map f) := by
        rw [pieces_map, List.map_map, List.map_map]
        refine List.map_congr_left fun p _ => ?_
        exact ih t p
      rw [stretch, stretch, hinner]
      split
      · rw [List.map_flatten]
      · rw [List.map_flatten, List.map_replicate, List.map_flatten]

/-- Entries can be combined before or after they are broadcast. -/
theorem stretch_zipWith (f : α → β → γ) (s t : List Nat) {xs : List α} {ys : List β}
    (h : xs.length = ys.length) :
    stretch s t (List.zipWith f xs ys) = List.zipWith f (stretch s t xs) (stretch s t ys) := by
  have hxs : stretch s t xs = (stretch s t (xs.zip ys)).map Prod.fst := by
    rw [← stretch_map, List.map_fst_zip (Nat.le_of_eq h)]
  have hys : stretch s t ys = (stretch s t (xs.zip ys)).map Prod.snd := by
    rw [← stretch_map, List.map_snd_zip (Nat.le_of_eq h.symm)]
  have hzip : List.zipWith f xs ys = (xs.zip ys).map fun p => f p.1 p.2 := by
    rw [List.zip, List.map_zipWith]
  rw [hzip, stretch_map, hxs, hys, List.zipWith_map, List.zipWith_self]

/-- Broadcasting twice is broadcasting once. -/
theorem stretch_stretch {s t u : List Nat} (hst : Fits s t) (htu : Fits t u) {xs : List α}
    (hx : xs.length = volume s) : stretch t u (stretch s t xs) = stretch s u xs := by
  induction s generalizing t u xs with
  | nil =>
    cases t with
    | nil => cases u <;> rfl
    | cons n t => exact hst.elim
  | cons m s ih =>
    cases t with
    | nil => exact hst.elim
    | cons n t =>
      cases u with
      | nil => exact htu.elim
      | cons p u =>
        obtain ⟨hmn, hst⟩ := hst
        obtain ⟨hnp, htu⟩ := htu
        have hpieces : ∀ q ∈ pieces m (volume s) xs, q.length = volume s :=
          fun q hq => length_of_mem_pieces hx hq
        have hlen : ∀ q ∈ (pieces m (volume s) xs).map (stretch s t), q.length = volume t := by
          intro q hq
          obtain ⟨q', hq', rfl⟩ := List.mem_map.mp hq
          exact length_stretch hst (hpieces q' hq')
        have hinner : ((pieces m (volume s) xs).map (stretch s t)).map (stretch t u) =
            (pieces m (volume s) xs).map (stretch s u) := by
          rw [List.map_map]
          refine List.map_congr_left fun q hq => ?_
          exact ih hst htu (hpieces q hq)
        have hcount : ((pieces m (volume s) xs).map (stretch s t)).length = m := by simp
        simp only [stretch]
        by_cases hmn' : m = n
        · -- the first dimension stays at the first step
          subst hmn'
          have hcut := pieces_flatten hlen
          rw [hcount] at hcut
          rw [if_pos rfl, hcut, hinner]
        · -- the first dimension is repeated at the first step, and stays at the second one
          have hm : m = 1 := hmn.resolve_left hmn'
          have hnp' : n = p := hnp.resolve_right fun hn => hmn' (hm.trans hn.symm)
          subst hnp' hm
          have hone : pieces 1 (volume s) xs = [xs] := pieces_one (by simpa using hx)
          have hcopy : ∀ q ∈ List.replicate n (stretch s t xs), q.length = volume t := by
            intro q hq
            rw [List.eq_of_mem_replicate hq]
            exact length_stretch hst (by simpa using hx)
          have hcut := pieces_flatten hcopy
          rw [List.length_replicate] at hcut
          have hxs : stretch t u (stretch s t xs) = stretch s u xs :=
            ih hst htu (by simpa using hx)
          simp only [if_neg hmn', if_true, hone, List.map_singleton, List.flatten_singleton, hcut,
            List.map_replicate, hxs]

/-! ## Common shapes -/

/-- Two dimensions can be joined to a third one in either order. -/
theorem commonLength?_right_comm (m n p : Nat) :
    (commonLength? m n).bind (commonLength? · p) = (commonLength? m p).bind (commonLength? · n) := by
  by_cases hmn : m = n <;> by_cases hmp : m = p <;> by_cases hm : m = 1 <;>
    by_cases hn : n = 1 <;> by_cases hp : p = 1 <;> by_cases hnp : n = p <;>
    simp_all [commonLength?, eq_comm]

/-- A join of shapes, first dimension first. -/
theorem joinAligned?_bind_cons (m n p : Nat) (s t u : List Nat) :
    (joinAligned? (m :: s) (n :: t)).bind (joinAligned? · (p :: u)) =
      ((commonLength? m n).bind (commonLength? · p)).bind fun d =>
        ((joinAligned? s t).bind (joinAligned? · u)).map (d :: ·) := by
  cases hd : commonLength? m n with
  | none => simp [joinAligned?, hd]
  | some d =>
    cases hv : joinAligned? s t with
    | none => simp [joinAligned?, hd, hv]
    | some v =>
      cases he : commonLength? d p with
      | none => simp [joinAligned?, hd, hv, he]
      | some e => cases hw : joinAligned? v u <;> simp [joinAligned?, hd, hv, he, hw]

/-- Two shapes can be joined to a third one of their rank in either order. -/
theorem joinAligned?_right_comm {s t u : List Nat} (hst : s.length = t.length)
    (hsu : s.length = u.length) :
    (joinAligned? s t).bind (joinAligned? · u) = (joinAligned? s u).bind (joinAligned? · t) := by
  induction s generalizing t u with
  | nil =>
    rw [List.eq_nil_of_length_eq_zero hst.symm, List.eq_nil_of_length_eq_zero hsu.symm]
  | cons m s ih =>
    obtain ⟨n, t, rfl⟩ := List.exists_cons_of_length_eq_add_one hst.symm
    obtain ⟨p, u, rfl⟩ := List.exists_cons_of_length_eq_add_one hsu.symm
    have hrest := ih (t := t) (u := u) (by simpa using hst) (by simpa using hsu)
    rw [joinAligned?_bind_cons, joinAligned?_bind_cons, commonLength?_right_comm, hrest]

/-- Aligned shapes have a common shape of the same rank. -/
theorem joinAligned?_length {s t u : List Nat} (h : joinAligned? s t = some u) :
    u.length = s.length :=
  (joinAligned?_fits h).1.length_eq.symm

/-- Padding in steps. -/
theorem pad_eq_append {rank : Nat} {s : List Nat} (k : Nat) (h : s.length ≤ rank) :
    pad (k + rank) s = List.replicate k 1 ++ pad rank s := by
  unfold pad
  rw [← List.append_assoc, List.replicate_append_replicate]
  congr 2
  omega

/-- Dimensions of length one in front take no part in a join. -/
theorem joinAligned?_replicate (k : Nat) (s t : List Nat) :
    joinAligned? (List.replicate k 1 ++ s) (List.replicate k 1 ++ t) =
      (joinAligned? s t).map (List.replicate k 1 ++ ·) := by
  induction k with
  | zero => simp
  | succ k ih =>
    rw [List.replicate_succ, List.cons_append, List.cons_append, joinAligned?, ih]
    cases joinAligned? s t <;> simp [commonLength?]

/-- A shape that has the rank already is not padded. -/
theorem pad_eq_self {rank : Nat} {s : List Nat} (h : s.length = rank) : pad rank s = s := by
  unfold pad
  rw [h, Nat.sub_self]
  rfl

/-- The common shape has the larger rank. -/
theorem join?_length {s t u : List Nat} (h : join? s t = some u) :
    u.length = max s.length t.length := by
  have hlen := joinAligned?_length h
  rwa [length_pad (Nat.le_max_left _ _)] at hlen

/-- The common shape of two shapes, seen at a rank that is large enough. -/
theorem joinAligned?_pad {rank : Nat} {s t : List Nat} (hs : s.length ≤ rank)
    (ht : t.length ≤ rank) :
    joinAligned? (pad rank s) (pad rank t) = (join? s t).map (pad rank) := by
  obtain ⟨k, rfl⟩ : ∃ k, rank = k + max s.length t.length :=
    ⟨rank - max s.length t.length, by omega⟩
  rw [pad_eq_append k (Nat.le_max_left _ _), pad_eq_append k (Nat.le_max_right _ _),
    joinAligned?_replicate]
  change (join? s t).map _ = _
  cases hjoin : join? s t with
  | none => rfl
  | some u =>
    have hu := join?_length hjoin
    rw [Option.map_some, Option.map_some, pad_eq_append k (Nat.le_of_eq hu), pad_eq_self hu]

/-- A join of three shapes, seen at the rank of the result. -/
theorem join?_bind_eq_aligned (s t u : List Nat) {rank : Nat}
    (h : rank = max (max s.length t.length) u.length) :
    (join? s t).bind (join? · u) =
      (joinAligned? (pad rank s) (pad rank t)).bind (joinAligned? · (pad rank u)) := by
  have hs : s.length ≤ rank := by omega
  have ht : t.length ≤ rank := by omega
  have hu : u.length ≤ rank := by omega
  rw [joinAligned?_pad hs ht]
  cases hst : join? s t with
  | none => rfl
  | some v =>
    have hlen := join?_length hst
    have hv : v.length ≤ rank := by omega
    rw [Option.map_some, Option.bind_some, Option.bind_some, joinAligned?_pad hv hu]
    cases hvu : join? v u with
    | none => rfl
    | some w =>
      have hw := join?_length hvu
      have hself : pad rank w = w := pad_eq_self (by omega)
      rw [Option.map_some, hself]

/-- Two shapes can be joined to a third one in either order. -/
theorem join?_right_comm (s t u : List Nat) :
    (join? s t).bind (join? · u) = (join? s u).bind (join? · t) := by
  obtain ⟨rank, hrank⟩ : ∃ rank, rank = max (max s.length t.length) u.length := ⟨_, rfl⟩
  have hlen : ∀ v : List Nat, v.length ≤ rank → (pad rank v).length = rank :=
    fun v hv => length_pad hv
  have hrank' : rank = max (max s.length u.length) t.length := by omega
  rw [join?_bind_eq_aligned s t u hrank, join?_bind_eq_aligned s u t hrank']
  refine joinAligned?_right_comm ?_ ?_
  · rw [hlen s (by omega), hlen t (by omega)]
  · rw [hlen s (by omega), hlen u (by omega)]

/-! ## Arrays -/

/-- Dimensions of length one in front do not change the entries. -/
theorem stretch_replicate (k : Nat) (s t : List Nat) {xs : List α} (hx : xs.length = volume s) :
    stretch (List.replicate k 1 ++ s) (List.replicate k 1 ++ t) xs = stretch s t xs := by
  induction k with
  | zero => rfl
  | succ k ih =>
    have hvolume : volume (List.replicate k 1 ++ s) = volume s := by
      have hpad := volume_pad (k + s.length) s
      rwa [pad_eq_append k (Nat.le_refl _), pad_eq_self rfl] at hpad
    have hone : pieces 1 (volume (List.replicate k 1 ++ s)) xs = [xs] :=
      pieces_one (hx.trans hvolume.symm)
    simp only [List.replicate_succ, List.cons_append, stretch, hone, if_true, List.map_singleton,
      List.flatten_singleton, ih]

/-- Shapes that fit, fit behind the same number of ones. -/
theorem fits_replicate (k : Nat) {s t : List Nat} (h : Fits s t) :
    Fits (List.replicate k 1 ++ s) (List.replicate k 1 ++ t) := by
  induction k with
  | zero => exact h
  | succ k ih => exact ⟨Or.inl rfl, ih⟩

/-- Entries that are broadcast to a shape and from there to another one. -/
theorem stretch_pad_stretch {s u w : List Nat} (hs : s.length ≤ u.length)
    (hu : u.length ≤ w.length) (hsu : Fits (pad u.length s) u) (huw : Fits (pad w.length u) w)
    {xs : List α} (hx : xs.length = volume s) :
    stretch (pad w.length u) w (stretch (pad u.length s) u xs) = stretch (pad w.length s) w xs := by
  obtain ⟨k, hk⟩ : ∃ k, w.length = k + u.length := ⟨w.length - u.length, by omega⟩
  have hpadded : pad w.length u = List.replicate k 1 ++ u := by
    rw [hk, pad_eq_append k (Nat.le_refl _), pad_eq_self rfl]
  have hpads : pad w.length s = List.replicate k 1 ++ pad u.length s := by
    rw [hk, pad_eq_append k hs]
  have hxs : xs.length = volume (pad u.length s) := by rw [volume_pad, hx]
  have hfits := fits_replicate k hsu
  rw [← stretch_replicate k (pad u.length s) u hxs, ← hpadded, ← hpads]
  rw [← hpadded, ← hpads] at hfits
  exact stretch_stretch hfits huw (by rw [volume_pad, hx])

/-- Arrays with the same shape and the same entries are the same. -/
theorem eq_of_entries {a b : Tensor α} (hs : a.shape = b.shape) (he : a.entries = b.entries) :
    a = b := by
  obtain ⟨s, xs, _⟩ := a
  obtain ⟨t, ys, _⟩ := b
  cases hs
  cases he
  rfl

/-- What two arrays give together: the common shape, and their entries combined after they are
broadcast. -/
theorem zipWith?_eq_some_iff {f : α → β → γ} {a : Tensor α} {b : Tensor β} {c : Tensor γ} :
    zipWith? f a b = some c ↔ join? a.shape b.shape = some c.shape ∧
      c.entries = List.zipWith f (a.spread c.shape) (b.spread c.shape) := by
  unfold zipWith?
  constructor
  · intro h
    split at h
    · cases h
    · next shape hshape =>
      cases h
      exact ⟨hshape, rfl⟩
  · rintro ⟨hshape, hentries⟩
    split
    · next hnone =>
      rw [hnone] at hshape
      cases hshape
    · next shape hsome =>
      rw [hsome, Option.some.injEq] at hshape
      subst hshape
      exact congrArg some (eq_of_entries rfl hentries.symm)

/-- A function of the entries can be applied before or after the array is broadcast. -/
theorem spread_map (f : α → β) (t : Tensor α) (s : List Nat) :
    (t.map f).spread s = (t.spread s).map f :=
  stretch_map f (pad s.length t.shape) s t.entries

/-- A function of the entries of the first array can be made a part of the operation. -/
theorem zipWith?_map_left {δ : Type} (f : β → γ → δ) (g : α → β) (a : Tensor α) (b : Tensor γ) :
    zipWith? f (a.map g) b = zipWith? (fun x y => f (g x) y) a b := by
  ext c
  rw [zipWith?_eq_some_iff, zipWith?_eq_some_iff, spread_map, List.zipWith_map_left]
  rfl

/-- Two arrays can be combined if their shapes fit. -/
theorem exists_zipWith? (f : α → β → γ) {a : Tensor α} {b : Tensor β} {s : List Nat}
    (h : join? a.shape b.shape = some s) : ∃ c, zipWith? f a b = some c := by
  unfold zipWith?
  split
  · next hnone =>
    rw [hnone] at h
    cases h
  · exact ⟨_, rfl⟩

/-- Three arrays together: all entries can be broadcast to the last shape first. -/
theorem zipWith?_bind_eq_some_iff {f : α → α → α} {a b c d : Tensor α} :
    (zipWith? f a b).bind (zipWith? f · c) = some d ↔
      (join? a.shape b.shape).bind (join? · c.shape) = some d.shape ∧
        d.entries =
          List.zipWith f (List.zipWith f (a.spread d.shape) (b.spread d.shape))
            (c.spread d.shape) := by
  -- the entries of the two first arrays, broadcast to the last shape in two steps or in one
  have hspread : ∀ e : Tensor α, zipWith? f a b = some e → join? e.shape c.shape = some d.shape →
      e.spread d.shape = List.zipWith f (a.spread d.shape) (b.spread d.shape) := by
    intro e he hd
    obtain ⟨hshape, hentries⟩ := zipWith?_eq_some_iff.mp he
    have hfits := join?_fits hshape
    have hlen := join?_length hshape
    have hlen' := join?_length hd
    unfold spread at hentries ⊢
    rw [hentries, stretch_zipWith,
      stretch_pad_stretch (by omega) (by omega) hfits.1 (join?_fits hd).1 a.length_entries,
      stretch_pad_stretch (by omega) (by omega) hfits.2 (join?_fits hd).1 b.length_entries]
    exact (a.length_spread hfits.1).trans (b.length_spread hfits.2).symm
  rw [Option.bind_eq_some_iff, Option.bind_eq_some_iff]
  constructor
  · rintro ⟨e, he, hd⟩
    obtain ⟨hshape, -⟩ := zipWith?_eq_some_iff.mp he
    obtain ⟨hshape', hentries⟩ := zipWith?_eq_some_iff.mp hd
    rw [hspread e he hshape'] at hentries
    exact ⟨⟨e.shape, hshape, hshape'⟩, hentries⟩
  · rintro ⟨⟨u, hu, hd⟩, hentries⟩
    obtain ⟨e, he⟩ : ∃ e, zipWith? f a b = some e := by
      unfold zipWith?
      split
      · next hnone =>
        rw [hnone] at hu
        cases hu
      · exact ⟨_, rfl⟩
    obtain ⟨hshape, -⟩ := zipWith?_eq_some_iff.mp he
    rw [hu, Option.some.injEq] at hshape
    subst hshape
    rw [← hspread e he hd] at hentries
    exact ⟨e, he, zipWith?_eq_some_iff.mpr ⟨hd, hentries⟩⟩

/-- Two arrays can be combined with a third one in either order. -/
theorem zipWith?_right_comm {f : α → α → α} (hf : ∀ x y z, f (f x y) z = f (f x z) y)
    (a b c : Tensor α) :
    (zipWith? f a b).bind (zipWith? f · c) = (zipWith? f a c).bind (zipWith? f · b) := by
  refine Option.ext fun d => ?_
  rw [zipWith?_bind_eq_some_iff, zipWith?_bind_eq_some_iff, join?_right_comm,
    Outcome.zipWith_right_comm hf]

/-! ## Scalars among arrays -/

/-- A shape is its common shape with as many ones. -/
theorem joinAligned?_ones (s : List Nat) :
    joinAligned? (List.replicate s.length 1) s = some s := by
  induction s with
  | nil => rfl
  | cons n s ih =>
    rw [List.length_cons, List.replicate_succ, joinAligned?, ih]
    by_cases hn : 1 = n <;> simp [commonLength?, hn]

/-- A scalar is broadcast to any shape. -/
theorem join?_nil (s : List Nat) : join? [] s = some s := by
  have hnil : pad s.length [] = List.replicate s.length 1 := by simp [pad]
  have haligned := joinAligned?_ones s
  unfold join?
  rw [List.length_nil, Nat.zero_max]
  change joinAligned? (pad s.length []) (pad s.length s) = some s
  rwa [hnil, pad_eq_self rfl]

/-- The pieces of a list make it up. -/
theorem flatten_pieces {n m : Nat} {xs : List α} (hx : xs.length = n * m) :
    (pieces n m xs).flatten = xs := by
  induction n generalizing xs with
  | zero => simpa [pieces, eq_comm] using hx
  | succ n ih =>
    rw [Nat.succ_mul] at hx
    rw [pieces, List.flatten_cons, ih (by rw [List.length_drop]; omega), List.take_append_drop]

/-- Broadcasting to the shape that an array has changes nothing. -/
theorem stretch_self {s : List Nat} {xs : List α} (hx : xs.length = volume s) :
    stretch s s xs = xs := by
  induction s generalizing xs with
  | nil => rfl
  | cons n s ih =>
    have hpieces : (pieces n (volume s) xs).map (stretch s s) = pieces n (volume s) xs := by
      conv => rhs; rw [← List.map_id (pieces n (volume s) xs)]
      refine List.map_congr_left fun p hp => ?_
      exact ih (length_of_mem_pieces hx hp)
    rw [stretch, if_pos rfl, hpieces]
    exact flatten_pieces (hx.trans (volume_cons n s))

/-- An array that is spread to its own shape has its own entries. -/
theorem spread_self (t : Tensor α) : t.spread t.shape = t.entries := by
  unfold spread
  rw [pad_eq_self rfl, stretch_self t.length_entries]

/-- A scalar is repeated once for each entry. -/
theorem spread_scalar (x : α) (s : List Nat) :
    (scalar x).spread s = List.replicate (volume s) x := by
  have hlen := (scalar ()).length_spread (join?_fits (join?_nil s)).1
  have hmap : (scalar x).spread s = ((scalar ()).spread s).map fun _ => x :=
    stretch_map (fun _ => x) (pad s.length []) s [()]
  rw [hmap, List.map_const', hlen]

/-- A scalar is combined with every entry. -/
theorem zipWith?_scalar (f : α → β → γ) (x : α) (b : Tensor β) :
    zipWith? f (scalar x) b = some (b.map (f x)) := by
  rw [zipWith?_eq_some_iff]
  refine ⟨join?_nil b.shape, ?_⟩
  change b.entries.map (f x) = List.zipWith f ((scalar x).spread b.shape) (b.spread b.shape)
  rw [spread_scalar, spread_self, ← b.length_entries]
  induction b.entries with
  | nil => rfl
  | cons y ys ih => rw [List.map_cons, List.length_cons, List.replicate_succ,
      List.zipWith_cons_cons, ih]

/-- Two shapes are broadcast to the same shape in either order. -/
theorem join?_comm (s t : List Nat) : join? s t = join? t s := by
  have h := join?_right_comm [] s t
  rwa [join?_nil, join?_nil, Option.bind_some, Option.bind_some] at h

/-- Every entry is combined with a scalar. -/
theorem zipWith?_scalar_right (f : α → β → γ) (a : Tensor α) (y : β) :
    zipWith? f a (scalar y) = some (a.map fun x => f x y) := by
  rw [zipWith?_eq_some_iff]
  refine ⟨(join?_comm _ _).trans (join?_nil a.shape), ?_⟩
  change (a.entries.map fun x => f x y) =
    List.zipWith f (a.spread a.shape) ((scalar y).spread a.shape)
  rw [spread_scalar, spread_self, ← a.length_entries]
  induction a.entries with
  | nil => rfl
  | cons x xs ih => rw [List.map_cons, List.length_cons, List.replicate_succ,
      List.zipWith_cons_cons, ih]

/-- An array without dimensions is a scalar. -/
theorem eq_scalar_of_shape {t : Tensor α} (h : t.shape = []) : ∃ x, t = scalar x := by
  have hlen : t.entries.length = 1 := by rw [t.length_entries, h, volume_nil]
  obtain ⟨x, hx⟩ := List.length_eq_one_iff.mp hlen
  exact ⟨x, eq_of_entries h hx⟩

/-- Different scalars are different arrays. -/
theorem scalar_inj {x y : α} (h : scalar x = scalar y) : x = y := by
  have hentries : [x] = [y] := congrArg Tensor.entries h
  exact List.head_eq_of_cons_eq hentries

/-- An array without dimensions is the scalar that it has. -/
theorem scalar?_eq_some {t : Tensor α} {x : α} (h : t.scalar? = some x) : t = scalar x := by
  unfold scalar? at h
  split at h
  · next hshape hentries =>
    cases h
    exact eq_of_entries hshape hentries
  · cases h

/-- A function of all entries is applied to the one of a scalar. -/
theorem scalar?_map (f : α → β) (t : Tensor α) : (t.map f).scalar? = t.scalar?.map f := by
  by_cases h : t.shape = []
  · obtain ⟨x, rfl⟩ := eq_scalar_of_shape h
    rfl
  · have hnone {γ : Type} (u : Tensor γ) (hu : u.shape ≠ []) : u.scalar? = none := by
      unfold scalar?
      split
      · next hshape _ => exact absurd hshape hu
      · rfl
    rw [hnone t h, hnone (t.map f) h, Option.map_none]

/-- If two arrays together give a scalar, both are scalars. -/
theorem zipWith?_eq_scalar {f : α → β → γ} {a : Tensor α} {b : Tensor β} {c : Tensor γ}
    (h : zipWith? f a b = some c) (hc : c.shape = []) :
    ∃ x y, a = scalar x ∧ b = scalar y ∧ c = scalar (f x y) := by
  have hrank := join?_length (zipWith?_eq_some_iff.mp h).1
  rw [hc, List.length_nil] at hrank
  obtain ⟨x, rfl⟩ := eq_scalar_of_shape (List.length_eq_zero_iff.mp (by omega) : a.shape = [])
  obtain ⟨y, rfl⟩ := eq_scalar_of_shape (List.length_eq_zero_iff.mp (by omega) : b.shape = [])
  rw [zipWith?_scalar, Option.some.injEq] at h
  exact ⟨x, y, rfl, rfl, h.symm⟩

end BayesGraph.Tensor
