import BayesGraph.CompiledModel
import BayesGraph.Proofs.Broadcasting
import BayesGraph.Proofs.InitialPoint
import BayesGraph.Proofs.NamedValues

/-!
# Samples of a matrix of draws

A compiled model takes a vector of coordinates to named values, and a matrix of draws to named
columns. The matrix is taken row by row, and an entry of a column is the value that belongs to its
row (`CompiledModel.samples_of_make`). The names of the columns are those of a single vector, but a
matrix without rows gives columns to the parameters only, even if the logical nodes are included.
-/

set_option autoImplicit false

namespace BayesGraph

open Outcome

namespace Tensor

variable {α : Type}

/-- The matrix with some rows, which have one length. -/
def ofRows (width : Nat) (rows : List (List α)) (h : ∀ xs ∈ rows, xs.length = width) : Tensor α :=
  ⟨[rows.length, width], rows.flatten, by
    simpa using length_flatten_of_forall (n := rows.length) rfl h⟩

/-- The rows of an array that is made of rows are these rows. -/
theorem rows?_ofRows {width : Nat} {rows : List (List α)} (h : ∀ xs ∈ rows, xs.length = width) :
    (ofRows width rows h).rows? = some (rows.map ofList) := by
  unfold rows? ofRows
  dsimp only
  rw [Option.some.injEq]
  have hpieces : pieces rows.length (volume [width]) rows.flatten = rows := by
    simpa using pieces_flatten h
  refine List.ext_getElem (by simp) fun k hk hk' => ?_
  rw [List.getElem_map, List.getElem_attach, List.getElem_map]
  refine eq_of_entries ?_ ?_
  · have hk : k < rows.length := by simpa using hk'
    simp [ofList, h _ (List.getElem_mem hk)]
  · simp only [hpieces]
    rfl

end Tensor

namespace CompiledModel

variable {α : Type} [Scalar α] {m : Model} {data inits : Table String Datum} {r : Registry α}
  {transformed : Bool} {calls : CallMode} {c : CompiledModel α}

/-- The graph of a compiled model is that of its model and data. -/
theorem graph_of_make (h : (make m data inits r transformed calls).collect.1 = .ok c) :
    (Graph.build m data r).collect.1 = .ok c.graph := by
  unfold make Logged.collect at h
  rcases hrun : ExceptT.run (do
      let g ← Graph.build m data r
      let initial ← initialCoordinates g r inits transformed
      return (⟨m, r, g, transformed, calls, initial⟩ : CompiledModel α)) [] with ⟨result, messages⟩
  rw [hrun] at h
  cases h
  obtain ⟨g, _, hg, hrest⟩ := run_bind_eq_ok.mp hrun
  obtain ⟨initial, _, -, hc⟩ := run_bind_eq_ok.mp hrest
  obtain ⟨rfl, -⟩ := run_pure_eq_ok.mp hc
  exact congrArg Prod.fst hg

/-- Without initial values the coordinates are those of the empty assignment. -/
theorem yields_initialCoordinates (g : Graph) (r : Registry α) (transformed : Bool) :
    Yields (initialCoordinates g r Table.empty transformed)
      (match g.flattenWith r Table.empty transformed Graph.undefinedValue with
        | .ok s => .ok s.2
        | .error e => .error (.eval e)) :=
  Graph.yields_flatten g r Table.empty transformed

/-- The names of the values of a vector are those of the graph. -/
theorem keys_of_unflatten (hc : c.graph.WellFormed) {logical : Bool} {theta : Tensor α}
    {values : List (Identity × α)} (h : c.unflatten logical theta = .ok values) :
    values.map Prod.fst = c.graph.identities (c.graph.named logical) := by
  obtain ⟨coordinates, -, hvalues⟩ := bind_eq_ok.mp h
  exact Graph.keys_of_unflatten hc (lift_eval_eq_ok.mp hvalues)

/-- A matrix is taken row by row. -/
theorem samples_ofRows (logical : Bool) {draws : List (List α)}
    (hdraws : ∀ theta ∈ draws, theta.length = c.dimension) :
    c.samples logical (.ofRows c.dimension draws hdraws) = (do
      let values ← draws.mapM fun theta => c.unflatten logical (.ofList theta)
      if values.isEmpty then return c.parameterNames.map fun id => (id, .ofList [])
      else return collectRows values) := by
  unfold samples
  rw [if_neg (by simp [Tensor.rank, Tensor.ofRows]), Tensor.rows?_ofRows]
  dsimp only
  rw [List.mapM_map]
  rfl

omit [Scalar α] in
/-- In a row that has every name once, the first value under a name is the only one. -/
theorem exists_find?_of_nodup {row : List (Identity × α)} (hnodup : (row.map Prod.fst).Nodup)
    {id : Identity} (hid : id ∈ row.map Prod.fst) :
    ∃ x, (row.find? fun e => decide (e.1 = id)).map (·.2) = some x ∧
      ∀ y, (id, y) ∈ row ↔ y = x := by
  induction row with
  | nil => cases hid
  | cons e row ih =>
    obtain ⟨name, x⟩ := e
    obtain ⟨hfresh, hrest⟩ := List.nodup_cons.mp hnodup
    by_cases hname : name = id
    · subst hname
      refine ⟨x, by simp, fun y => ⟨fun hy => ?_, fun hy => by simp [hy]⟩⟩
      rcases List.mem_cons.mp hy with heq | hy
      · exact congrArg Prod.snd heq
      · exact absurd (List.mem_map_of_mem hy) hfresh
    · obtain ⟨x', hx', hunique⟩ := ih hrest ((List.mem_cons.mp hid).resolve_left (Ne.symm hname))
      refine ⟨x', by simpa [hname] using hx', fun y => ?_⟩
      rw [← hunique, List.mem_cons, Prod.mk.injEq]
      exact or_iff_right fun heq => hname heq.1.symm

omit [Scalar α] in
/-- Rows that name the same values, each once, are collected under these names: a column has an
entry for each row, which is the value that the row has under the name. -/
theorem columns_of_collectRows {names : List Identity} (hnodup : names.Nodup)
    {rows : List (List (Identity × α))} (hnames : ∀ row ∈ rows, row.map Prod.fst = names)
    {id : Identity} {t : Tensor α} (h : (id, t) ∈ collectRows rows) :
    t.shape = [rows.length] ∧
      List.Forall₂ (fun row x => ∀ y, (id, y) ∈ row ↔ y = x) rows t.entries := by
  obtain ⟨⟨id', x⟩, hmem, heq⟩ := List.mem_map.mp h
  cases heq
  have hid : id ∈ names := by
    cases rows with
    | nil => cases hmem
    | cons row rows => exact hnames row List.mem_cons_self ▸ List.mem_map_of_mem hmem
  have hcolumn := (forall₂_filterMap (List.forall₂_same.mpr fun row hrow =>
    exists_find?_of_nodup (hnames row hrow ▸ hnodup) (hnames row hrow ▸ hid))).flip
  exact ⟨congrArg (fun n => [n]) hcolumn.length_eq.symm, hcolumn⟩

/-- A single vector is taken to scalars. -/
theorem samples_ofList (logical : Bool) (theta : List α) :
    c.samples logical (.ofList theta) = (do
      return (← c.unflatten logical (.ofList theta)).map fun (id, x) => (id, .scalar x)) :=
  if_pos rfl

/-- The names of the values of a single vector are those of the graph. -/
theorem keys_of_samples (hc : c.graph.WellFormed) {logical : Bool} {theta : List α}
    {single : Samples α} (h : c.samples logical (.ofList theta) = .ok single) :
    single.map Prod.fst = c.graph.identities (c.graph.named logical) := by
  rw [samples_ofList, bind_eq_ok] at h
  obtain ⟨values, hvalues, h⟩ := h
  cases h
  rw [List.map_map, ← keys_of_unflatten hc hvalues]
  rfl

/-- The samples of a matrix of draws are those of its rows. An entry of a column is the one value
that belongs to its row under the name of the column. The columns have the names of the values of
any single vector, unless the matrix has no rows and logical nodes are included: then there is no
column for a logical node. -/
theorem samples_of_make (hc : (make m data inits r transformed calls).collect.1 = .ok c)
    (logical : Bool) {draws : List (List α)} (hdraws : ∀ theta ∈ draws, theta.length = c.dimension)
    (hrows : ∀ theta ∈ draws, ∃ values, c.unflatten logical (.ofList theta) = .ok values) :
    ∃ columns : Samples α, c.samples logical (.ofRows c.dimension draws hdraws) = .ok columns ∧
      (columns.map Prod.fst).Nodup ∧
      (∀ id t, (id, t) ∈ columns → t.shape = [draws.length] ∧
        ∀ (k : Nat) theta values, draws[k]? = some theta →
          c.unflatten logical (.ofList theta) = .ok values →
            ∃ x, t.entries[k]? = some x ∧ ∀ y, (id, y) ∈ values ↔ y = x) ∧
      ∀ theta single, c.samples logical (.ofList theta) = .ok single →
        (draws ≠ [] ∨ logical = false ∨ (∀ n ∈ c.graph.nodes, n.role.isLogical = false) →
          columns.map Prod.fst = single.map Prod.fst) ∧
        (draws = [] → logical = true → ∀ n ∈ c.graph.nodes, n.role.isLogical = true →
          n.id ∈ single.map Prod.fst ∧ n.id ∉ columns.map Prod.fst) := by
  have hwf := Graph.wellFormed_of_build (graph_of_make hc)
  have hnodup := hwf.nodup_identities (hwf.nodup_named logical)
  obtain ⟨rows, hvalues⟩ := exists_forall₂ hrows
  rw [samples_ofRows, mapM_eq_ok.mpr hvalues, ok_bind]
  cases hvalues with
  | nil =>
    have hkeys : (c.parameterNames.map fun id => (id, (.ofList [] : Tensor α))).map Prod.fst =
        c.graph.identities c.graph.parameters := by
      rw [List.map_map]
      exact List.map_id _
    refine ⟨_, rfl, ?_, ?_, fun theta single hsingle => ⟨fun hcovered => ?_, ?_⟩⟩
    · rw [hkeys, ← Graph.named_eq_parameters (Or.inl rfl)]
      exact hwf.nodup_identities (hwf.nodup_named false)
    · intro id t ht
      obtain ⟨_, -, heq⟩ := List.mem_map.mp ht
      cases heq
      exact ⟨rfl, fun k theta values hk => by simp at hk⟩
    · rw [hkeys, keys_of_samples hwf hsingle,
        Graph.named_eq_parameters (hcovered.resolve_left (· rfl))]
    · rintro - rfl n hn hlogical
      obtain ⟨i, hi⟩ := List.getElem?_of_mem hn
      rw [hkeys, keys_of_samples hwf hsingle, hwf.mem_identities_iff hi, hwf.mem_identities_iff hi]
      exact hwf.logical_named hi hlogical
  | @cons theta row draws rows hrow hvalues =>
    have hvalues : List.Forall₂ (fun theta values => c.unflatten logical (.ofList theta) = .ok values)
        (theta :: draws) (row :: rows) := .cons hrow hvalues
    have hnames : ∀ row' ∈ row :: rows,
        row'.map Prod.fst = c.graph.identities (c.graph.named logical) := by
      intro row' hrow'
      obtain ⟨theta', -, hvalues'⟩ := exists_of_forall₂ hvalues.flip hrow'
      exact keys_of_unflatten hwf hvalues'
    have hkeys : (collectRows (row :: rows)).map Prod.fst =
        c.graph.identities (c.graph.named logical) := by
      rw [← hnames row List.mem_cons_self]
      unfold collectRows
      rw [List.map_map]
      rfl
    refine ⟨_, rfl, hkeys ▸ hnodup, ?_, fun theta' single hsingle => ⟨fun _ => ?_, ?_⟩⟩
    · intro id t ht
      obtain ⟨hshape, hcolumn⟩ := columns_of_collectRows hnodup hnames ht
      refine ⟨hvalues.length_eq ▸ hshape, fun k theta' values hk hvalues' => ?_⟩
      obtain ⟨hlt, rfl⟩ := List.getElem?_eq_some_iff.mp hk
      have hkrows : k < (row :: rows).length := hvalues.length_eq ▸ hlt
      have hkentries : k < t.entries.length := hcolumn.length_eq ▸ hkrows
      have hrow' := Except.ok.inj (hvalues'.symm.trans (hvalues.get hlt hkrows))
      exact ⟨_, List.getElem?_eq_getElem hkentries, hrow' ▸ hcolumn.get hkrows hkentries⟩
    · rw [hkeys, keys_of_samples hwf hsingle]
    · exact fun hnil => absurd hnil (List.cons_ne_nil _ _)

/-- A model compiles without initial values if its graph is built and the empty assignment has
coordinates. -/
theorem make_of_build {g : Graph} {s : Graph.Settled α}
    (hg : (Graph.build m data r).collect.1 = .ok g)
    (hs : g.flattenWith r Table.empty transformed Graph.undefinedValue = .ok s) :
    (make m data Table.empty r transformed calls).collect.1 =
      .ok ⟨m, r, g, transformed, calls, s.2⟩ := by
  have hinitial := yields_initialCoordinates g r transformed
  rw [hs] at hinitial
  rcases hrun : (Graph.build m data r).run [] with ⟨result, messages⟩
  obtain rfl : result = .ok g := by
    rw [Logged.collect, hrun] at hg
    exact hg
  unfold make Logged.collect
  rw [run_bind_of_ok _ hrun]
  exact yields_bind hinitial (fun v => yields_pure _) messages

/-- A model with the parameter `x` and the logical node `z`, which adds one to it, compiles and can
be evaluated at zero and at one. -/
theorem exists_compiled_shiftModel :
    ∃ c, (make Graph.shiftModel Graph.shiftData Table.empty
        (Registry.builtin : Registry Dual) true .direct).collect.1 = .ok c ∧
      c.dimension = 1 ∧ c.parameterNames = [⟨"x", []⟩] ∧
      c.graph.identities (c.graph.named true) = [⟨"x", []⟩, ⟨"z", []⟩] ∧
      ∀ theta ∈ [[Scalar.ofInt 0], [Scalar.ofInt 1]],
        ∃ values, c.unflatten true (.ofList theta) = .ok values := by
  obtain ⟨g, hg, s, hs, hfacts⟩ : ∃ g, (Graph.build Graph.shiftModel Graph.shiftData
      (Registry.builtin : Registry Dual)).collect.1 = .ok g ∧
        ∃ s, g.flattenWith (Registry.builtin : Registry Dual) Table.empty true
            Graph.undefinedValue = .ok s ∧
          let c : CompiledModel Dual := ⟨Graph.shiftModel, Registry.builtin, g, true, .direct, s.2⟩
          c.dimension = 1 ∧ c.parameterNames = [⟨"x", []⟩] ∧
            c.graph.identities (c.graph.named true) = [⟨"x", []⟩, ⟨"z", []⟩] ∧
            ∀ theta ∈ [[Scalar.ofInt 0], [Scalar.ofInt 1]],
              ∃ values, c.unflatten true (.ofList theta) = .ok values := by
    rw [Graph.build_of_constants Graph.flatten_shiftData Graph.constants_shiftModel]
    decide +kernel
  exact ⟨_, make_of_build hg hs, hfacts⟩

/-- Two draws of `x` give columns of two entries to `x` and `z`. -/
theorem samples_shiftModel :
    ∃ c columns, (make Graph.shiftModel Graph.shiftData Table.empty
        (Registry.builtin : Registry Dual) true .direct).collect.1 = .ok c ∧
      c.samples true ⟨[2, 1], [Scalar.ofInt 0, Scalar.ofInt 1], rfl⟩ = .ok columns ∧
      columns.map Prod.fst = [⟨"x", []⟩, ⟨"z", []⟩] ∧
      ∀ id t, (id, t) ∈ columns → t.shape = [2] := by
  obtain ⟨c, hc, hdimension, -, hnames, hvalues⟩ := exists_compiled_shiftModel
  have hdraws : ∀ theta ∈ [[(Scalar.ofInt 0 : Dual)], [Scalar.ofInt 1]],
      theta.length = c.dimension := by
    simp [hdimension]
  obtain ⟨columns, hcolumns, -, hentries, hkeys⟩ := samples_of_make hc true hdraws hvalues
  obtain ⟨values, hsingle⟩ := hvalues [Scalar.ofInt 0] List.mem_cons_self
  have hsamples : c.samples true (.ofList [Scalar.ofInt 0]) =
      .ok (values.map fun (id, x) => (id, .scalar x)) := by
    rw [samples_ofList, hsingle]
    rfl
  refine ⟨c, columns, hc, ?_, ?_, fun id t ht => (hentries id t ht).1⟩
  · rw [← hcolumns]
    exact congrArg _ (Tensor.eq_of_entries (by simp [Tensor.ofRows, hdimension]) rfl)
  · rw [(hkeys _ _ hsamples).1 (Or.inl (List.cons_ne_nil _ _)),
      keys_of_samples (Graph.wellFormed_of_build (graph_of_make hc)) hsamples, hnames]

/-- A matrix without rows has no column for `z`, which every single vector has a value of. -/
theorem samples_shiftModel_nil :
    ∃ c columns single, (make Graph.shiftModel Graph.shiftData Table.empty
        (Registry.builtin : Registry Dual) true .direct).collect.1 = .ok c ∧
      c.samples true ⟨[0, 1], [], rfl⟩ = .ok columns ∧
      c.samples true (.ofList [Scalar.ofInt 0]) = .ok single ∧
      columns.map Prod.fst = [⟨"x", []⟩] ∧ single.map Prod.fst = [⟨"x", []⟩, ⟨"z", []⟩] := by
  obtain ⟨c, hc, hdimension, hparameters, hnames, hvalues⟩ := exists_compiled_shiftModel
  obtain ⟨values, hsingle⟩ := hvalues [Scalar.ofInt 0] List.mem_cons_self
  have hsamples : c.samples true (.ofList [Scalar.ofInt 0]) =
      .ok (values.map fun (id, x) => (id, .scalar x)) := by
    rw [samples_ofList, hsingle]
    rfl
  refine ⟨c, c.parameterNames.map fun id => (id, .ofList []), _, hc, rfl, hsamples, ?_, ?_⟩
  · rw [hparameters]
    rfl
  · rw [keys_of_samples (Graph.wellFormed_of_build (graph_of_make hc)) hsamples, hnames]

end CompiledModel

end BayesGraph
