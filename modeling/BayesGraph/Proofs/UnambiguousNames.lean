import BayesGraph.Proofs.AdmissibleResolution
import BayesGraph.Proofs.Classification
import BayesGraph.Proofs.DataEntries
import BayesGraph.Proofs.IdentifierTexts

/-!
# Names in the graph of a model

The names of a model are checked as they are written, with all loop variables taken together. Nodes
come from a resolution under the loop variables around each instance, so a name that is a loop
variable in one place and something else in another has to be caught on the way. It is: a resolved
expression refers to written names only (`names_of_resolve`), and an identity gets a node because it
stands on a left-hand side, which no loop variable may, or because the data has a value for it,
under a name that no loop variable may have either. So all names in a graph are identifiers, and
none of them is the name of a function, of a distribution or of a loop variable
(`names_of_build`).
-/

set_option autoImplicit false

namespace BayesGraph

open Outcome

/-! ## Written names -/

/-- One of the names belongs to the identity. -/
def Identity.NamedIn (id : Identity) (names : List Datum) : Prop :=
  ∃ name ∈ names, name.shown = id.name

/-- With more names, an identity is still named by one of them. -/
theorem Identity.NamedIn.mono {id : Identity} {names more : List Datum} (h : id.NamedIn names)
    (hsub : names ⊆ more) : id.NamedIn more := by
  obtain ⟨name, hname, hshown⟩ := h
  exact ⟨name, hsub hname, hshown⟩

/-- The names in a list of statements include those of each member. -/
theorem Stmt.variableNames_of_mem {ss : List Stmt} {names : List Datum}
    (h : variableNamesOfAll ss = .ok names) {s : Stmt} (hs : s ∈ ss) :
    ∃ own, s.variableNames = .ok own ∧ own ⊆ names := by
  induction ss generalizing names with
  | nil => cases hs
  | cons first rest ih =>
    simp only [variableNamesOfAll, bind_eq_ok, pure_eq_ok] at h
    obtain ⟨front, hfront, others, hothers, rfl⟩ := h
    rcases List.mem_cons.mp hs with rfl | hs
    · exact ⟨front, hfront, List.subset_append_left front others⟩
    · obtain ⟨own, hown, hsub⟩ := ih hothers hs
      exact ⟨own, hown, List.Subset.trans hsub (List.subset_append_right front others)⟩

/-- The names in an instance are names in the statements. -/
theorem Site.Within.variableNames {ss : List Stmt} {site : Site} (h : site.Within ss)
    {names : List Datum} (hnames : Stmt.variableNamesOfAll ss = .ok names) :
    ∃ own, site.statement.variableNames = .ok own ∧ own ⊆ names := by
  induction h with
  | statement hs => exact Stmt.variableNames_of_mem hnames hs
  | inner _ ht ih =>
    obtain ⟨comment, var, sequence, body, s, i, hstatement, hs, rfl⟩ := exists_of_mem_inner ht
    obtain ⟨own, hown, hsub⟩ := ih
    rw [hstatement] at hown
    simp only [Stmt.variableNames, bind_eq_ok, pure_eq_ok] at hown
    obtain ⟨range, -, inner, hinner, rfl⟩ := hown
    obtain ⟨own', hown', hsub'⟩ := Stmt.variableNames_of_mem hinner hs
    refine ⟨own', hown', fun name hname => hsub ?_⟩
    exact List.mem_append_right _ (hsub' hname)

/-! ## Names of resolved references -/

namespace Context

variable {α : Type} [Scalar α] {ctx : Context α} {site : Site}

omit [Scalar α] in
/-- A reference is to elements of its array. -/
theorem name_of_reference {name : String} {indices : List Expr} {positions : List (List Int)}
    {refs : List Identity} (h : (reference name indices positions).refs = .ok refs) :
    ∀ id ∈ refs, id.name = name := by
  unfold reference at h
  split at h
  · cases h
    intro id hid
    obtain ⟨is, -, rfl⟩ := List.mem_map.mp hid
    rfl
  · cases h
    intro id hid
    rw [List.mem_singleton] at hid
    rw [hid]

mutual

/-- A resolved expression refers to variables that are written in it. -/
theorem names_of_resolve (e : Expr) {e' : Expr} {names : List Datum} {refs : List Identity}
    (hnames : e.variableNames = .ok names) (h : ctx.resolve site e = .ok e')
    (hrefs : e'.refs = .ok refs) : ∀ id ∈ refs, id.NamedIn names := by
  match e with
  | .literal val =>
    cases h
    cases hrefs
    simp
  | .var name =>
    cases hnames
    rw [resolve] at h
    split at h
    · cases h
      cases hrefs
      simp
    · cases h
      cases hrefs
      intro id hid
      rw [List.mem_singleton] at hid
      subst hid
      exact ⟨name, List.mem_singleton_self name, rfl⟩
  | .index name indices =>
    simp only [Expr.variableNames, bind_eq_ok, pure_eq_ok] at hnames
    obtain ⟨inner, -, rfl⟩ := hnames
    rw [resolve] at h
    split at h
    · simp [Site.refuse_ne_ok] at h
    · simp only [bind_eq_ok, pure_eq_ok] at h
      obtain ⟨positions, -, rfl⟩ := h
      intro id hid
      exact ⟨name, List.mem_cons_self, (name_of_reference hrefs id hid).symm⟩
  | .negate val =>
    simp only [resolve, bind_eq_ok, pure_eq_ok] at h
    obtain ⟨val', hval, rfl⟩ := h
    exact names_of_resolve val hnames hval hrefs
  | .add a b | .sub a b | .mul a b | .div a b | .pow a b =>
    simp only [resolve, bind_eq_ok, pure_eq_ok] at h
    obtain ⟨left, hleft, right, hright, rfl⟩ := h
    simp only [Expr.variableNames, bind_eq_ok, pure_eq_ok] at hnames
    obtain ⟨namesLeft, hnamesLeft, namesRight, hnamesRight, rfl⟩ := hnames
    simp only [Expr.refs, bind_eq_ok, pure_eq_ok] at hrefs
    obtain ⟨refsLeft, hrefsLeft, refsRight, hrefsRight, rfl⟩ := hrefs
    intro id hid
    rcases List.mem_append.mp hid with hid | hid
    · have hnamed := names_of_resolve a hnamesLeft hleft hrefsLeft id hid
      exact hnamed.mono (List.subset_append_left _ _)
    · have hnamed := names_of_resolve b hnamesRight hright hrefsRight id hid
      exact hnamed.mono (List.subset_append_right _ _)
  | .call func arguments =>
    simp only [resolve, bind_eq_ok, pure_eq_ok] at h
    obtain ⟨arguments', harguments, rfl⟩ := h
    exact names_of_resolveAll arguments hnames harguments hrefs
  | .colon | .range _ _ | .ref _ | .refArray _ _ | .raw _ | .rawList _ =>
    simp [resolve, Site.refuse_ne_ok] at h

/-- The same for a list of expressions. -/
theorem names_of_resolveAll (es : List Expr) {es' : List Expr} {names : List Datum}
    {refs : List Identity} (hnames : Expr.variableNamesOfAll es = .ok names)
    (h : ctx.resolveAll site es = .ok es') (hrefs : Expr.refsOfAll es' = .ok refs) :
    ∀ id ∈ refs, id.NamedIn names := by
  match es with
  | [] =>
    cases h
    cases hrefs
    simp
  | e :: rest =>
    simp only [resolveAll, bind_eq_ok, pure_eq_ok] at h
    obtain ⟨first, hfirst, others, hothers, rfl⟩ := h
    simp only [Expr.variableNamesOfAll, bind_eq_ok, pure_eq_ok] at hnames
    obtain ⟨namesFirst, hnamesFirst, namesRest, hnamesRest, rfl⟩ := hnames
    simp only [Expr.refsOfAll, bind_eq_ok, pure_eq_ok] at hrefs
    obtain ⟨refsFirst, hrefsFirst, refsRest, hrefsRest, rfl⟩ := hrefs
    intro id hid
    rcases List.mem_append.mp hid with hid | hid
    · have hnamed := names_of_resolve e hnamesFirst hfirst hrefsFirst id hid
      exact hnamed.mono (List.subset_append_left _ _)
    · have hnamed := names_of_resolveAll rest hnamesRest hothers hrefsRest id hid
      exact hnamed.mono (List.subset_append_right _ _)

end

/-- A left-hand side defines an element of the variable that is written there. -/
theorem name_of_resolveTarget {lhs : Expr} {id : Identity}
    (h : ctx.resolveTarget site lhs = .ok id) :
    ∃ name, lhs.target? = some name ∧ name.shown = id.name := by
  unfold resolveTarget at h
  split at h
  · next name =>
    split at h
    · simp [Site.refuse_ne_ok] at h
    · cases h
      exact ⟨name, rfl, rfl⟩
  · next name indices =>
    simp only [bind_eq_ok, pure_eq_ok] at h
    obtain ⟨is, -, rfl⟩ := h
    exact ⟨name, rfl, rfl⟩
  · simp [Site.refuse_ne_ok] at h

end Context

/-- The name of a target is one of the names in the left-hand side. -/
theorem Expr.mem_variableNames_of_target? {lhs : Expr} {name : Datum}
    (h : lhs.target? = some name) {names : List Datum} (hnames : lhs.variableNames = .ok names) :
    name ∈ names := by
  unfold target? at h
  split at h
  · cases h
    cases hnames
    exact List.mem_singleton_self name
  · cases h
    simp only [variableNames, bind_eq_ok, pure_eq_ok] at hnames
    obtain ⟨inner, -, rfl⟩ := hnames
    exact List.mem_cons_self
  · cases h

/-! ## Names of definitions -/

namespace Unrolled

variable {α : Type} [Scalar α] {ctx : Context α} {site : Site}

/-- The meaning of an instance refers to variables that are written in its statement. -/
theorem names_of_resolveMeaning {meaning : Meaning} {names : List Datum} {refs : List Identity}
    (hnames : site.statement.variableNames = .ok names) (h : resolveMeaning ctx site = .ok meaning)
    (hrefs : meaning.refs = .ok refs) : ∀ id ∈ refs, id.NamedIn names := by
  unfold resolveMeaning at h
  cases hstatement : site.statement with
  | sample comment lhs law =>
    rw [hstatement] at h hnames
    simp only [Stmt.variableNames, bind_eq_ok, pure_eq_ok] at hnames
    obtain ⟨left, -, right, hright, rfl⟩ := hnames
    cases law with
    | dist d =>
      simp only [bind_eq_ok, pure_eq_ok] at h
      obtain ⟨d', hd', rfl⟩ := h
      have hparts := Context.resolveAll_of_resolveDist hd'
      intro id hid
      have hnamed := Context.names_of_resolveAll d.parts hright hparts hrefs id hid
      exact hnamed.mono (List.subset_append_right left right)
    | raw object => simp at h
  | assign comment lhs rhs =>
    rw [hstatement] at h hnames
    simp only [Stmt.variableNames, bind_eq_ok, pure_eq_ok] at hnames
    obtain ⟨left, -, right, hright, rfl⟩ := hnames
    simp only [bind_eq_ok, pure_eq_ok] at h
    obtain ⟨e', he', rfl⟩ := h
    obtain ⟨part, hpart, hsub⟩ : ∃ part, e'.refs = .ok part ∧ refs ⊆ part := by
      simp only [Meaning.refs, Meaning.parts, Expr.refsOfAll, bind_eq_ok, pure_eq_ok] at hrefs
      obtain ⟨part, hpart, _, rfl, rfl⟩ := hrefs
      exact ⟨part, hpart, by simp⟩
    intro id hid
    have hnamed := Context.names_of_resolve rhs hright he' hpart id (hsub hid)
    exact hnamed.mono (List.subset_append_right left right)
  | loop _ _ _ _ | raw _ =>
    rw [hstatement] at h
    simp at h

/-- The left-hand side of an instance is written in its statement, as one of the targets. -/
theorem name_of_target? {id : Identity} (h : ctx.target? site = some id) {names : List Datum}
    (hnames : site.statement.variableNames = .ok names) :
    ∃ name ∈ names, name ∈ site.statement.targets ∧ name.shown = id.name := by
  obtain ⟨lhs, hlhs, hid⟩ := Context.target?_eq_some.mp h
  obtain ⟨name, hname, hshown⟩ := Context.name_of_resolveTarget hid
  unfold Site.lhs? at hlhs
  cases hstatement : site.statement with
  | sample _ lhs' _ | assign _ lhs' _ =>
    rw [hstatement] at hlhs hnames
    cases hlhs
    simp only [Stmt.variableNames, bind_eq_ok, pure_eq_ok] at hnames
    obtain ⟨left, hleft, right, -, rfl⟩ := hnames
    refine ⟨name, ?_, ?_, hshown⟩
    · exact List.mem_append_left right (Expr.mem_variableNames_of_target? hname hleft)
    · simp [Stmt.targets, hname]
  | loop _ _ _ _ | raw _ =>
    rw [hstatement] at hlhs
    cases hlhs

/-- The targets of the definitions are written on left-hand sides, and what they refer to is written
in the statements. -/
theorem names_of_make {m : Model} {bindings : Table String Datum} {functions : FunctionTable α}
    {u : Unrolled α} (h : make m bindings functions = .ok u) {names : List Datum}
    (hnames : Stmt.variableNamesOfAll m.statements = .ok names) {d : Definition}
    (hd : d ∈ u.definitions) :
    (∃ name ∈ names, name ∈ Stmt.targetsOfAll m.statements ∧ name.shown = d.target.name) ∧
      ∀ id ∈ d.refs, id.NamedIn names := by
  obtain ⟨targets, -, -, hwalk, hdefinitions⟩ := make_eq_ok_iff.mp h
  obtain ⟨t, ht, hdefine⟩ := exists_of_mem_mapM hdefinitions hd
  obtain ⟨htarget, hmeaning, hrefs, -, -⟩ := define_eq_ok hdefine
  obtain ⟨hwithin, known, hid⟩ := registered_of_walk hwalk t (List.mem_reverse.mp ht)
  obtain ⟨own, hown, hsub⟩ := hwithin.variableNames hnames
  constructor
  · obtain ⟨name, hname, htargets, hshown⟩ := name_of_target? hid hown
    refine ⟨name, hsub hname, hwithin.targets_subset htargets, ?_⟩
    rw [hshown, htarget]
  · intro id href
    rw [Context.explain_eq_ok] at hmeaning
    exact (names_of_resolveMeaning hown hmeaning hrefs id href).mono hsub

end Unrolled

/-! ## The main theorem -/

namespace Names

variable {m : Model} {dataNames : List String} {reserved : String → Bool} {used : List Datum}

/-- A written name is an identifier that is not reserved. -/
theorem Unambiguous.of_namedIn (h : Unambiguous m dataNames reserved used) {names : List Datum}
    (hnames : Stmt.variableNamesOfAll m.statements = .ok names) {id : Identity}
    (hid : id.NamedIn names) : isIdentifier id.name = true ∧ reserved id.name = false := by
  obtain ⟨name, hname, hshown⟩ := hid
  have hwritten := mem_used_or_loops h.used_eq hnames hname
  obtain ⟨s, rfl, haccepted⟩ := isIdentifierObject_iff.mp (h.identifier name hwritten)
  rw [← hshown]
  exact ⟨isIdentifier_iff.mpr haccepted, h.free _ hwritten⟩

/-- A written name is the text that it shows. -/
theorem Unambiguous.eq_text (h : Unambiguous m dataNames reserved used) {name : Datum}
    (hname : name ∈ used ++ Stmt.loopVariables m.statements) : name = .text name.shown := by
  obtain ⟨s, rfl, -⟩ := isIdentifierObject_iff.mp (h.identifier name hname)
  rfl

/-- Around an instance, no name but those of loop variables has a value. -/
theorem Unambiguous.value?_eq_none (h : Unambiguous m dataNames reserved used) {s : String}
    (hs : .text s ∉ Stmt.loopVariables m.statements) {site : Site}
    (hsite : site.Within m.statements) : site.env.value? (.text s) = none := by
  unfold LoopValues.value?
  rw [Option.map_eq_none_iff, List.find?_eq_none]
  intro e he heq
  obtain ⟨name, hname, hshown⟩ := hsite.name_of_mem_env e he
  have hloop : name ∈ Stmt.loopVariables m.statements := mem_distinct.mpr hname
  have htext := h.eq_text (List.mem_append_right used hloop)
  rw [hshown, ← of_decide_eq_true heq] at htext
  exact hs (htext ▸ hloop)

end Names

namespace Graph

variable {α : Type} [Scalar α] {m : Model} {bindings : Table String Datum} {r : Registry α}
  {g : Graph}

/-- The identity belongs to a node, or an expression of a node refers to it. -/
def Mentions (g : Graph) (id : Identity) : Prop :=
  ∃ n ∈ g.nodes, n.id = id ∨ ∃ e ∈ n.role.parts, e.Mentions id

/-- In a well-formed graph, every identity that is mentioned has a node. -/
theorem WellFormed.node_of_mentions (hg : g.WellFormed) {id : Identity} (h : g.Mentions id) :
    ∃ n ∈ g.nodes, n.id = id := by
  obtain ⟨n, hn, rfl | ⟨e, he, hmentions⟩⟩ := h
  · exact ⟨n, hn, rfl⟩
  · obtain ⟨refs, hrefs, -⟩ := hg.linked n hn
    obtain ⟨part, hpart, hsub⟩ := Expr.refs_of_refsOfAll hrefs he
    exact hg.node_of_ref hn hrefs (hsub (hmentions.mem_refs hpart))

/-- Names in the graph of a model are unambiguous. Every identity in the graph, be it a left-hand
side or data, has a name that is an identifier and belongs to no registered function or distribution
and to no loop variable of the model. So around no instance of a statement it has the value of a
loop variable. -/
theorem names_of_build (h : (build m bindings r).collect.1 = .ok g) {id : Identity}
    (hid : g.Mentions id) :
    Names.isIdentifier id.name = true ∧ r.contains id.name = false ∧
      .text id.name ∉ Stmt.loopVariables m.statements ∧
      ∀ site : Site, site.Within m.statements → site.env.value? (.text id.name) = none := by
  rw [build_result] at h
  simp only [bind_eq_ok] at h
  obtain ⟨used, hverdict, u, hu, hg⟩ := h
  have hnames := Names.verdict_eq_ok_iff.mp hverdict
  obtain ⟨names, hwritten, -, -⟩ := Names.variableNames_eq_ok_iff.mp hnames.used_eq
  have hwf := wellFormed_ofUnrolled (fun d hd => Unrolled.refs_of_make hu hd) hg
  obtain ⟨n, hn, rfl⟩ := hwf.node_of_mentions hid
  have hnode : n.id.NamedIn names ∧ .text n.id.name ∉ Stmt.loopVariables m.statements := by
    obtain ⟨defined, leaves, hnodes, hdefined, hleaves⟩ := nodes_of_ofUnrolled hg
    rw [hnodes, List.mem_append] at hn
    rcases hn with hn | hn
    · -- a left-hand side, and these are no loop variables
      obtain ⟨d, hd, htarget, -⟩ := exists_of_forall₂ hdefined.flip hn
      have hmem := (firstDefinitions_sublist u.definitions).subset hd
      obtain ⟨⟨name, hname, htargets, hshown⟩, -⟩ := Unrolled.names_of_make hu hwritten hmem
      rw [← htarget] at hshown
      refine ⟨⟨name, hname, hshown⟩, fun hloop => ?_⟩
      have htext := hnames.eq_text (Names.mem_used_or_loops hnames.used_eq hwritten hname)
      rw [hshown] at htext
      exact (hnames.unshadowed _ hloop).1 (htext ▸ htargets)
    · -- data, to which a definition refers
      obtain ⟨-, -, ⟨v, hv, -⟩, d, hd, href⟩ := hleaves n hn
      have hmem := (firstDefinitions_sublist u.definitions).subset hd
      have hrefs : n.id ∈ d.refs := by
        unfold Definition.usedRefs at href
        split at href
        · cases href
        · exact mem_distinct.mp href
      obtain ⟨targets, hflatten, -⟩ := Unrolled.make_eq_ok_iff.mp hu
      have hbound : n.id.name ∈ bindings.keys :=
        Bindings.mem_keys_of_value hflatten ((Table.contains_iff _ _).mpr ⟨v, hv⟩)
      refine ⟨(Unrolled.names_of_make hu hwritten hmem).2 n.id hrefs, fun hloop => ?_⟩
      exact (hnames.unshadowed _ hloop).2 hbound
  obtain ⟨hidentifier, hfree⟩ := hnames.of_namedIn hwritten hnode.1
  exact ⟨hidentifier, hfree, hnode.2, fun site hsite => hnames.value?_eq_none hnode.2 hsite⟩

/-- Loops inside each other, around a distribution with a slice and with a truncation bound. -/
def nestedModel : Model where
  statements :=
    [.loop [] (.text "i") (.range (.literal (.int 1)) (.literal (.int 2)))
      [.loop [] (.text "j") (.range (.literal (.int 1)) (.var (.text "N")))
        [.sample [] (.index (.text "y") [.var (.text "i"), .var (.text "j")])
          (.dist {
            name := .text "dnorm"
            params :=
              [.call (.text "sum")
                [.index (.text "x") [.range (.literal (.int 1)) (.literal (.int 2))]],
              .literal (.int 1)]
            lower := some (.var (.text "lo")) })]]]

/-- The number of columns, the elements of the slice and the truncation bound. -/
def nestedData : Table String Datum :=
  ⟨[("N", .int 2), ("x", .list [.int 1, .int 2]), ("lo", .int (-1))]⟩

/-- The data, entry by entry. -/
def nestedBindings : Bindings where
  values := ⟨[(⟨"N", []⟩, .int 2), (⟨"x", [1]⟩, .int 1), (⟨"x", [2]⟩, .int 2),
    (⟨"lo", []⟩, .int (-1))]⟩
  shapes := ⟨[("N", []), ("x", [2]), ("lo", [])]⟩

/-- The constants are the data, and the entries that are counted from them. -/
theorem constants_nestedModel :
    Folding.constants (Registry.builtin : Registry Dual).foldingFunctions nestedModel.statements
      nestedBindings = .ok ⟨[(⟨"N", []⟩, .int 2), (⟨"x", [1]⟩, .int 1), (⟨"x", [2]⟩, .int 2),
        (⟨"lo", []⟩, .int (-1))]⟩ :=
  Folding.saturate_eq_ok rfl rfl

/-- An element of `y`, one of the slice and the truncation bound are in the graph. Their names are
no loop variables, and inside the loops none of them has a value. -/
theorem names_nestedModel :
    ∃ g, (build nestedModel nestedData (Registry.builtin : Registry Dual)).collect.1 = .ok g ∧
      ∀ id ∈ ([⟨"y", [2, 1]⟩, ⟨"x", [2]⟩, ⟨"lo", []⟩] : List Identity),
        g.Mentions id ∧ Names.isIdentifier id.name = true ∧
        (Registry.builtin : Registry Dual).contains id.name = false ∧
        .text id.name ∉ Stmt.loopVariables nestedModel.statements ∧
        ∀ site : Site, site.Within nestedModel.statements →
          site.env.value? (.text id.name) = none := by
  obtain ⟨g, hg, hnodes⟩ : ∃ g, (build nestedModel nestedData
      (Registry.builtin : Registry Dual)).collect.1 = .ok g ∧
        ∀ id ∈ ([⟨"y", [2, 1]⟩, ⟨"x", [2]⟩, ⟨"lo", []⟩] : List Identity),
          id ∈ g.nodes.map (·.id) := by
    have hdata : Bindings.flatten nestedData = .ok nestedBindings := rfl
    rw [build_of_constants hdata constants_nestedModel]
    decide +kernel
  refine ⟨g, hg, fun id hid => ?_⟩
  obtain ⟨n, hn, hname⟩ := List.mem_map.mp (hnodes id hid)
  have hmentions : g.Mentions id := ⟨n, hn, Or.inl hname⟩
  exact ⟨hmentions, names_of_build hg hmentions⟩

end Graph

end BayesGraph
