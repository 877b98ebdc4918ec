import BayesGraph.Proofs.Settling
import BayesGraph.Unrolled

/-!
# What an unrolled model looks like

The passes of `Unrolled.make` one by one: the data is flattened, constants are folded, the
left-hand sides are registered, and each registered instance becomes a definition. A definition
carries the identities that its meaning refers to, all of them within the shapes.
-/

set_option autoImplicit false

namespace BayesGraph

/-- The empty slots on a right-hand side. -/
def Site.rightSlots (site : Site) : List Slot :=
  match site.statement with
  | .sample _ _ (.dist d) => Expr.emptySlotsOfAll d.parts
  | .assign _ _ rhs => rhs.emptySlots
  | .sample _ _ (.raw _) | .loop _ _ _ _ | .raw _ => []

namespace Unrolled

open Outcome

variable {α : Type} [Scalar α]

/-- The walk that registers the left-hand sides. -/
def registering (context : ShapeTable → Context α) : Walker α Progress :=
  ⟨true, fun p => context p.shapes, visitTarget context⟩

/-- Unrolls a model with constants that are known already. -/
def makeWith (m : Model) (data : Bindings) (constants : Folding.Constants α)
    (functions : FunctionTable α) : Except Failure (Unrolled α) := do
  let context := context functions constants (Stmt.definedNames m.statements)
  let progress ←
    Stmt.walkAll ⟨true, fun (p : Progress) => context p.shapes, visitTarget context⟩ []
      ⟨ShapeTable.ofData data.shapes, []⟩ m.statements
  let definitions ← progress.targets.reverse.mapM fun (site, id) =>
    define context progress.shapes site id
  return ⟨definitions, progress.shapes, data, constants⟩

/-- Unrolling is done in three steps: the data, the constants, and the definitions. -/
theorem make_eq (m : Model) (bindings : Table String Datum) (functions : FunctionTable α) :
    make m bindings functions = (do
      let data ← Bindings.flatten bindings
      let constants ← Folding.constants functions m.statements data
      makeWith m data constants functions) := rfl

/-- The data and the constants of a model can be found ahead of an unrolling. -/
theorem make_of_constants {m : Model} {bindings : Table String Datum} {functions : FunctionTable α}
    {data : Bindings} {constants : Folding.Constants α}
    (hdata : Bindings.flatten bindings = .ok data)
    (hconstants : Folding.constants functions m.statements data = .ok constants) :
    make m bindings functions = makeWith m data constants functions := by
  rw [make_eq, hdata, ok_bind, hconstants, ok_bind]

/-- An unrolling succeeds exactly if its passes do, one after the other. -/
theorem make_eq_ok_iff {m : Model} {bindings : Table String Datum} {functions : FunctionTable α}
    {u : Unrolled α} : make m bindings functions = .ok u ↔
    ∃ targets,
      Bindings.flatten bindings = .ok u.data ∧
      Folding.constants functions m.statements u.data = .ok u.constants ∧
      Stmt.walkAll (registering (context functions u.constants (Stmt.definedNames m.statements)))
        [] ⟨ShapeTable.ofData u.data.shapes, []⟩ m.statements = .ok ⟨u.shapes, targets⟩ ∧
      targets.reverse.mapM (fun t => define
        (context functions u.constants (Stmt.definedNames m.statements)) u.shapes t.1 t.2) =
        .ok u.definitions := by
  simp only [make, bind_eq_ok, pure_eq_ok]
  constructor
  · rintro ⟨data, hdata, constants, hconstants, ⟨shapes, targets⟩, hwalk, definitions, hdefs, rfl⟩
    exact ⟨targets, hdata, hconstants, hwalk, hdefs⟩
  · rintro ⟨targets, hdata, hconstants, hwalk, hdefs⟩
    exact ⟨_, hdata, _, hconstants, _, hwalk, _, hdefs, rfl⟩

/-- What a definition is made of. -/
theorem define_eq_ok {context : ShapeTable → Context α} {shapes : ShapeTable} {site : Site}
    {id : Identity} {d : Definition} (h : define context shapes site id = .ok d) :
    d.target = id ∧
      (context shapes).explain site .index (resolveMeaning (context shapes) site) = .ok d.meaning ∧
      d.meaning.refs = .ok d.refs ∧ site.source = .ok d.source ∧
      ∀ ref ∈ d.refs, shapes.checkBounds ref (some d.source) = .ok () := by
  simp only [define, bind_eq_ok, pure_eq_ok, lift_malformed_eq_ok] at h
  obtain ⟨meaning, hmeaning, refs, hrefs, source, hsource, u, hbounds, rfl⟩ := h
  refine ⟨rfl, hmeaning, hrefs, hsource, fun ref href => ?_⟩
  simpa using forM_eq_ok.mp hbounds ref href

/-- The definitions of an unrolled model know their references. -/
theorem refs_of_make {m : Model} {bindings : Table String Datum} {functions : FunctionTable α}
    {u : Unrolled α} (h : make m bindings functions = .ok u) {d : Definition}
    (hd : d ∈ u.definitions) : d.meaning.refs = .ok d.refs := by
  obtain ⟨targets, -, -, -, hdefs⟩ := make_eq_ok_iff.mp h
  obtain ⟨t, -, ht⟩ := exists_of_mem_mapM hdefs hd
  exact (define_eq_ok ht).2.2.1

/-- What defines an identity settles as constants become known, if the empty slots in it do. -/
theorem resolveMeaning_settles {ctx ctx' : Context α} (h : ctx.Below ctx') (site : Site)
    (hslots : ∀ slot ∈ site.rightSlots, Settles Failure.IsStuck (ctx.selection site slot)
      (ctx'.selection site slot)) :
    Settles Failure.IsStuck (resolveMeaning ctx site) (resolveMeaning ctx' site) := by
  have hsite := Site.Alike.refl site
  unfold resolveMeaning
  unfold Site.rightSlots at hslots
  cases hstatement : site.statement with
  | sample comment lhs law =>
    rw [hstatement] at hslots
    cases law with
    | dist d =>
      refine Settles.bind (Context.resolveDist_settles h hsite d hslots) ?_
      exact fun _ _ => Settles.refl _
    | raw object => exact Settles.refl _
  | assign comment lhs rhs =>
    rw [hstatement] at hslots
    refine Settles.bind (Context.resolve_settles h hsite rhs hslots) ?_
    exact fun _ _ => Settles.refl _
  | loop comment var sequence body => exact Settles.refl _
  | raw object => exact Settles.refl _

end Unrolled

end BayesGraph
