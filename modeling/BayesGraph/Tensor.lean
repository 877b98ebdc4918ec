/-!
# Rectangular arrays

An array is a shape and its entries in row-major order, as many as the product of the shape. Two
arrays are combined entry by entry after broadcasting: shapes are aligned at their last dimensions,
and a dimension of length one, or one that is absent, is repeated to the length of the other array's
dimension.
-/

set_option autoImplicit false

namespace BayesGraph

namespace Tensor

/-- Number of entries of an array with this shape. -/
def volume (shape : List Nat) : Nat := shape.foldr (· * ·) 1

/-- An array without dimensions has one entry. -/
@[simp] theorem volume_nil : volume [] = 1 := rfl

/-- The entries of an array are those of its parts. -/
@[simp] theorem volume_cons (n : Nat) (s : List Nat) : volume (n :: s) = n * volume s := rfl

end Tensor

/-- An array of any rank; a scalar has the empty shape. -/
structure Tensor (α : Type) where
  shape : List Nat
  /-- The entries in row-major order. -/
  entries : List α
  length_entries : entries.length = Tensor.volume shape

namespace Tensor

variable {α β γ : Type}

/-- The array without dimensions. -/
def scalar (x : α) : Tensor α := ⟨[], [x], rfl⟩

/-- The array of one dimension. -/
def ofList (xs : List α) : Tensor α := ⟨[xs.length], xs, by simp⟩

/-- The entry of an array without dimensions. -/
def scalar? (t : Tensor α) : Option α :=
  match t.shape, t.entries with
  | [], [x] => some x
  | _, _ => none

/-- Number of dimensions. -/
def rank (t : Tensor α) : Nat := t.shape.length

/-- Applies a function to every entry. -/
def map (f : α → β) (t : Tensor α) : Tensor β :=
  ⟨t.shape, t.entries.map f, by simp [t.length_entries]⟩

/-- A list of results has as many members as the list that they come from. -/
theorem length_of_mapM {ε : Type} (f : α → Except ε β) (xs : List α) {ys : List β}
    (h : xs.mapM f = .ok ys) : ys.length = xs.length := by
  induction xs generalizing ys with
  | nil =>
    cases h
    rfl
  | cons x xs ih =>
    rw [List.mapM_cons] at h
    cases hx : f x with
    | error e => simp [hx, bind, Except.bind] at h
    | ok y =>
      cases hxs : xs.mapM f with
      | error e => simp [hx, hxs, bind, Except.bind] at h
      | ok zs =>
        simp only [hx, hxs, bind, Except.bind, pure, Except.pure, Except.ok.injEq] at h
        subst h
        simp [ih hxs]

/-- Applies a function that can fail to every entry. -/
def mapM {ε : Type} (f : α → Except ε β) (t : Tensor α) : Except ε (Tensor β) :=
  match h : t.entries.mapM f with
  | .ok ys => .ok ⟨t.shape, ys, (length_of_mapM f _ h).trans t.length_entries⟩
  | .error e => .error e

/-! ## Pieces of a list -/

/-- Cuts a list into `n` pieces of a given size. -/
def pieces (n size : Nat) (xs : List α) : List (List α) :=
  match n with
  | 0 => []
  | k + 1 => xs.take size :: pieces k size (xs.drop size)

/-- A list is cut into as many pieces as asked for. -/
@[simp] theorem length_pieces (n size : Nat) (xs : List α) : (pieces n size xs).length = n := by
  induction n generalizing xs with
  | zero => rfl
  | succ n ih => simp [pieces, ih]

/-- The pieces of a list of the right length all have the given size. -/
theorem length_of_mem_pieces {n size : Nat} {xs p : List α} (hx : xs.length = n * size)
    (hp : p ∈ pieces n size xs) : p.length = size := by
  induction n generalizing xs with
  | zero => simp [pieces] at hp
  | succ n ih =>
    have hsucc : (n + 1) * size = n * size + size := Nat.succ_mul n size
    rw [pieces, List.mem_cons] at hp
    rcases hp with rfl | hp
    · rw [List.length_take]
      omega
    · exact ih (by rw [List.length_drop]; omega) hp

/-- Lists of one length, one behind the other. -/
theorem length_flatten_of_forall {n size : Nat} {xss : List (List α)} (hn : xss.length = n)
    (h : ∀ xs ∈ xss, xs.length = size) : xss.flatten.length = n * size := by
  induction xss generalizing n with
  | nil =>
    subst hn
    simp
  | cons xs xss ih =>
    subst hn
    have hrest := ih rfl fun ys hys => h ys (List.mem_cons_of_mem _ hys)
    have hhead := h xs List.mem_cons_self
    rw [List.flatten_cons, List.length_append, hrest, hhead, List.length_cons, Nat.succ_mul]
    omega

/-- The arrays along the first dimension; an array without dimensions has none. -/
def rows? (t : Tensor α) : Option (List (Tensor α)) :=
  match h : t.shape with
  | [] => none
  | n :: s =>
    have hn : t.entries.length = n * volume s := by rw [t.length_entries, h, volume_cons]
    some ((pieces n (volume s) t.entries).attach.map fun p => ⟨s, p.1, length_of_mem_pieces hn p.2⟩)

/-! ## Broadcasting -/

/-- The common length of two aligned dimensions. -/
def commonLength? (m n : Nat) : Option Nat :=
  if m = n then some m else if m = 1 then some n else if n = 1 then some m else none

/-- The common shape of two shapes of one rank. -/
def joinAligned? : List Nat → List Nat → Option (List Nat)
  | [], [] => some []
  | m :: s, n :: t => do
    let d ← commonLength? m n
    return d :: (← joinAligned? s t)
  | _, _ => none

/-- A shape with dimensions of length one put in front, up to a rank. -/
def pad (rank : Nat) (s : List Nat) : List Nat := List.replicate (rank - s.length) 1 ++ s

/-- The shape to which both shapes are broadcast. -/
def join? (s t : List Nat) : Option (List Nat) :=
  let rank := max s.length t.length
  joinAligned? (pad rank s) (pad rank t)

/-- Entries of an array, broadcast from one shape to another of the same rank. -/
def stretch : List Nat → List Nat → List α → List α
  | m :: s, n :: t, xs =>
    let inner := (pieces m (volume s) xs).map (stretch s t)
    if m = n then inner.flatten else (List.replicate n inner.flatten).flatten
  | _, _, xs => xs

/-- Can the first shape be broadcast to the second one, dimension by dimension? -/
def Fits : List Nat → List Nat → Prop
  | [], [] => True
  | m :: s, n :: t => (m = n ∨ m = 1) ∧ Fits s t
  | _, _ => False

/-- A padded shape has the rank that it is padded to. -/
theorem length_pad {rank : Nat} {s : List Nat} (h : s.length ≤ rank) :
    (pad rank s).length = rank := by
  simp [pad, h]

/-- Padding a shape does not change its volume. -/
@[simp] theorem volume_pad (rank : Nat) (s : List Nat) : volume (pad rank s) = volume s := by
  rw [pad]
  induction rank - s.length with
  | zero => rfl
  | succ k ih => simpa [List.replicate_succ] using ih

/-- Two dimensions are both broadcast to their common length. -/
theorem commonLength?_fits {m n d : Nat} (h : commonLength? m n = some d) :
    (m = d ∨ m = 1) ∧ (n = d ∨ n = 1) := by
  unfold commonLength? at h
  split at h
  · simp_all
  · split at h
    · simp_all
    · split at h
      · simp_all
      · simp at h

/-- Two shapes of one rank are both broadcast to their common shape. -/
theorem joinAligned?_fits {s t u : List Nat} (h : joinAligned? s t = some u) :
    Fits s u ∧ Fits t u := by
  induction s generalizing t u with
  | nil =>
    cases t with
    | nil =>
      cases h
      exact ⟨trivial, trivial⟩
    | cons n t => simp [joinAligned?] at h
  | cons m s ih =>
    cases t with
    | nil => simp [joinAligned?] at h
    | cons n t =>
      simp only [joinAligned?, Option.bind_eq_bind, Option.bind_eq_some_iff, Option.pure_def,
        Option.some.injEq] at h
      obtain ⟨d, hd, v, hv, rfl⟩ := h
      have hdims := commonLength?_fits hd
      have hrest := ih hv
      exact ⟨⟨hdims.1, hrest.1⟩, ⟨hdims.2, hrest.2⟩⟩

/-- Shapes that fit have the same rank. -/
theorem Fits.length_eq {s t : List Nat} (h : Fits s t) : s.length = t.length := by
  induction s generalizing t with
  | nil =>
    cases t with
    | nil => rfl
    | cons n t => exact h.elim
  | cons m s ih =>
    cases t with
    | nil => exact h.elim
    | cons n t => simp [ih h.2]

/-- Broadcasting gives as many entries as the new shape asks for. -/
theorem length_stretch {s t : List Nat} (h : Fits s t) {xs : List α}
    (hx : xs.length = volume s) : (stretch s t xs).length = volume t := by
  induction s generalizing t xs with
  | nil =>
    cases t with
    | nil => simpa [stretch] using hx
    | cons n t => exact h.elim
  | cons m s ih =>
    cases t with
    | nil => exact h.elim
    | cons n t =>
      have hinner : ∀ ys ∈ (pieces m (volume s) xs).map (stretch s t), ys.length = volume t := by
        intro ys hys
        obtain ⟨p, hp, rfl⟩ := List.mem_map.mp hys
        exact ih h.2 (length_of_mem_pieces hx hp)
      have hflat := length_flatten_of_forall (n := m) (by simp) hinner
      rw [stretch]
      split
      · next hmn =>
        rw [hflat, volume_cons, hmn]
      · next hmn =>
        have hm : m = 1 := h.1.resolve_left hmn
        rw [volume_cons]
        refine length_flatten_of_forall (by simp) ?_
        intro ys hys
        rw [List.eq_of_mem_replicate hys, hflat, hm, Nat.one_mul]

/-- The entries of an array, broadcast to a shape. -/
def spread (t : Tensor α) (shape : List Nat) : List α :=
  stretch (pad shape.length t.shape) shape t.entries

/-- An array that is spread has as many entries as the shape. -/
theorem length_spread (t : Tensor α) {shape : List Nat} (h : Fits (pad shape.length t.shape) shape) :
    (t.spread shape).length = volume shape :=
  length_stretch h (by rw [t.length_entries, volume_pad])

/-- Both shapes fit into the one to which they are broadcast. -/
theorem join?_fits {s t u : List Nat} (h : join? s t = some u) :
    Fits (pad u.length s) u ∧ Fits (pad u.length t) u := by
  have hfits := joinAligned?_fits h
  have hlen : u.length = max s.length t.length := by
    rw [← hfits.1.length_eq, length_pad (Nat.le_max_left _ _)]
  rwa [hlen]

/-- Combines two arrays entry by entry. -/
def zipWith? (f : α → β → γ) (a : Tensor α) (b : Tensor β) : Option (Tensor γ) :=
  match h : join? a.shape b.shape with
  | none => none
  | some shape =>
    have hfits := join?_fits h
    some ⟨shape, List.zipWith f (a.spread shape) (b.spread shape), by
      rw [List.length_zipWith, a.length_spread hfits.1, b.length_spread hfits.2, Nat.min_self]⟩

/-- The array broadcast to a shape, if its own shape fits. -/
def broadcast? (t : Tensor α) (shape : List Nat) : Option (Tensor α) :=
  if h : join? t.shape shape = some shape then
    some ⟨shape, t.spread shape, t.length_spread (join?_fits h).1⟩
  else none

/-! ## Stacking, reduction and reshaping -/

/-- Puts arrays of one shape behind each other along a new first dimension. -/
def stack? (ts : List (Tensor α)) : Option (Tensor α) :=
  match ts with
  | [] => none
  | t :: rest =>
    if h : ∀ u ∈ rest, u.shape = t.shape then
      some ⟨(t :: rest).length :: t.shape, ((t :: rest).map (·.entries)).flatten, by
        refine length_flatten_of_forall (by simp) ?_
        intro xs hxs
        obtain ⟨u, hu, rfl⟩ := List.mem_map.mp hxs
        rcases List.mem_cons.mp hu with rfl | hu
        · exact u.length_entries
        · exact u.length_entries.trans (congrArg volume (h u hu))⟩
    else none

/-- Entries of an array with a given shape, reduced along dimension `k`. -/
def reduceEntries (f : List α → β) : List Nat → Nat → List α → List β
  | [], _, _ => []
  | n :: s, 0, xs =>
    let rows := pieces n (volume s) xs
    (List.range (volume s)).map fun j => f (rows.filterMap (·[j]?))
  | n :: s, k + 1, xs => (pieces n (volume s) xs).flatMap (reduceEntries f s k)

/-- A reduction leaves one entry for each position in the other dimensions. -/
theorem length_reduceEntries (f : List α → β) {s : List Nat} {k : Nat} (hk : k < s.length)
    {xs : List α} (hx : xs.length = volume s) :
    (reduceEntries f s k xs).length = volume (s.eraseIdx k) := by
  induction s generalizing k xs with
  | nil => simp at hk
  | cons n s ih =>
    cases k with
    | zero => simp [reduceEntries]
    | succ k =>
      rw [reduceEntries, List.eraseIdx_cons_succ, volume_cons, List.flatMap]
      refine length_flatten_of_forall (by simp) ?_
      intro ys hys
      obtain ⟨p, hp, rfl⟩ := List.mem_map.mp hys
      exact ih (by simpa using hk) (length_of_mem_pieces hx hp)

/-- The array without dimension `k`: `f` takes the entries along that dimension to one. -/
def reduce (f : List α → β) (t : Tensor α) (k : Fin t.rank) : Tensor β :=
  ⟨t.shape.eraseIdx k, reduceEntries f t.shape k t.entries,
    length_reduceEntries f k.isLt t.length_entries⟩

/-- The same entries under another shape of the same volume. -/
def reshape? (t : Tensor α) (shape : List Nat) : Option (Tensor α) :=
  if h : volume shape = volume t.shape then some ⟨shape, t.entries, by rw [h, t.length_entries]⟩
  else none

end Tensor

end BayesGraph
