import BayesGraph.Graph

/-!
# Building the graph of a model

`Graph.build` checks the names of a model, unrolls it, and turns the definitions into nodes. Of
several definitions of one identity the first one counts, and data takes precedence over a logical
definition; both are reported. Data that is referred to becomes a leaf.
-/

set_option autoImplicit false

namespace BayesGraph

namespace Definition

/-- An error about the definition of an identity. -/
def refuse {ν : Type} (d : Definition) (cause : Cause) : Except Failure ν :=
  .error (.compile ⟨cause, some d.target, some d.source⟩)

/-- Checks a distribution against its family. -/
def checkFamily {α : Type} (d : Definition) (law : Dist) (f : Family α) (observed : Bool) :
    Except Failure Unit :=
  if law.params.length ≠ f.params.length then
    d.refuse (.parameterCount f.name f.params law.params.length)
  else if law.truncated && !f.truncatable then d.refuse (.notTruncatable f.name)
  else if f.discrete && !observed then d.refuse .discreteParameter
  else .ok ()

/-- Checks that all functions that are called are known. -/
def checkCalls {α : Type} (d : Definition) (r : Registry α) : Except Failure Unit :=
  let known (name : Datum) : Bool := (name.text?.bind r.functions.get?).isSome
  match d.meaning.calls.find? (!known ·) with
  | some name => d.refuse (.unknownFunction ("'" ++ name.shown ++ "'"))
  | none => .ok ()

/-- Does data take the place of the definition? -/
def isOverridden (d : Definition) (data : Bindings) : Bool :=
  !d.meaning.isStochastic && data.values.contains d.target

/-- The identities that become parents: none if data takes the place of the definition. -/
def usedRefs (d : Definition) (data : Bindings) : List Identity :=
  if d.isOverridden data then [] else distinct d.refs

end Definition

namespace Graph

/-- The message about a further definition of an identity. -/
def duplicateMessage (later first : Definition) : String :=
  "'" ++ later.target.text ++ "' is defined more than once: `" ++ later.source
    ++ "` is ignored in favor of `" ++ first.source ++ "`"

/-- The first definition of each identity, and messages about the others. -/
def firstDefinitions : List Definition → List Definition × List String :=
  List.foldl (fun (firsts, messages) d =>
    match firsts.find? fun e => decide (e.target = d.target) with
    | some e => (firsts, messages ++ [duplicateMessage d e])
    | none => (firsts ++ [d], messages)) ([], [])

/-- The message about a logical definition that data takes the place of. -/
def overriddenMessage (d : Definition) : String :=
  "'" ++ d.target.text ++ "' is in the data: ignoring logical statement `" ++ d.source ++ "`"

variable {α : Type}

/-- The role and the support label that a definition gives to its identity. -/
def roleOf (r : Registry α) (data : Bindings) (d : Definition) :
    Except Failure (Role × Option SupportKind) :=
  match d.meaning, data.values.get? d.target with
  | .dist law, value => do
    match r.family law.name with
    | .error e => d.refuse e.cause
    | .ok f =>
      d.checkFamily law f value.isSome
      match value with
      | some v => return (.observed v (some law), none)
      | none =>
        let label :=
          if f.supportKind ≠ .real || law.truncated then some f.supportKind else none
        return (.parameter law, label)
  | .expr _, some v => .ok (.observed v none, none)
  | .expr e, none => .ok (.logical e, none)

/-- The nodes of the definitions, without parents. -/
def definitionNode (r : Registry α) (data : Bindings) (d : Definition) : Logged Node := do
  let (role, support) ← roleOf r data d
  if d.isOverridden data then Logged.emit .warning (overriddenMessage d)
  d.checkCalls r
  return { id := d.target, role, support, statement := some d.source }

/-- Nodes that are added for data, and the parents of the definitions so far. -/
structure Links where
  ids : List Identity
  leaves : List Node
  parents : List (List Nat)

/-- The place of an identity in a list. -/
def placeOf (ids : List Identity) (ref : Identity) : Option Nat :=
  ids.findIdx? fun id => decide (id = ref)

/-- The number of the node of a reference, after adding a leaf if the data has a value for it. -/
def Links.resolve (data : Bindings) (d : Definition) (links : Links) (ref : Identity) :
    Except Failure (Links × Nat) :=
  match placeOf links.ids ref with
  | some i => .ok (links, i)
  | none =>
    match data.values.get? ref with
    | some v =>
      let leaf : Node := { id := ref, role := .observed v none }
      .ok ({ links with ids := links.ids ++ [ref], leaves := links.leaves ++ [leaf] },
        links.ids.length)
    | none =>
      let cause := if data.shapes.contains ref.name then Cause.missingValue else .undefinedVariable
      .error (.compile ⟨cause, some ref, some d.source⟩)

/-- The numbers of the nodes of references, one after the other. -/
def Links.resolveAll (data : Bindings) (d : Definition) (links : Links) :
    List Identity → Except Failure (Links × List Nat)
  | [] => .ok (links, [])
  | ref :: rest => do
    let (links, i) ← links.resolve data d ref
    let (links, is) ← links.resolveAll data d rest
    return (links, i :: is)

/-- Adds the parents of one definition. -/
def Links.add (data : Bindings) (links : Links) (d : Definition) : Except Failure Links := do
  let (links, parents) ← links.resolveAll data d (d.usedRefs data)
  return { links with parents := links.parents ++ [parents] }

/-- The cycle that keeps the nodes from being ordered, as an error. -/
def cycleError (nodes : List Node) (cycle : List Nat) : Failure :=
  let ids := cycle.filterMap fun i => (nodes[i]?).map (·.id)
  let statement := ((cycle[1]?).bind fun i => nodes[i]?).bind (·.statement)
  .compile ⟨.cycle ids, none, statement⟩

/-- Puts the nodes in order. -/
def assemble (nodes : List Node) (warnings : List String) : Except Failure Graph :=
  let lists : ParentLists := nodes.map (·.parents)
  match lists.order? with
  | none => .error (cycleError nodes (lists.findCycle.getD []))
  | some order =>
    let isParameter (i : Nat) : Bool := (nodes[i]?).any fun n => n.role.isParameter
    .ok ⟨nodes, order, order.filter isParameter, warnings⟩

/-- The message about a finished graph. -/
def summary (g : Graph) (name : String) : String :=
  let observations := g.nodes.countP fun n => n.role.isObserved && n.isStochastic
  let logical := g.nodes.countP fun n => n.role.isLogical
  "compiled model '" ++ name ++ "': " ++ toString g.size ++ " nodes, " ++ toString g.dimension
    ++ " parameters, " ++ toString observations ++ " observations, " ++ toString logical
    ++ " logical nodes"

variable [Scalar α]

/-- The graph of a model with data. -/
def build (m : Model) (bindings : Table String Datum) (r : Registry α) : Logged Graph := do
  Names.check m bindings.keys r.contains
  let unrolled ← (Unrolled.make m bindings r.foldingFunctions : Except Failure _)
  let data := unrolled.data
  let (definitions, duplicates) := firstDefinitions unrolled.definitions
  duplicates.forM (Logged.emit .warning)
  let nodes ← definitions.mapM (definitionNode r data)
  let links ← (definitions.foldlM (Links.add data) ⟨definitions.map (·.target), [], []⟩ :
    Except Failure Links)
  let linked := List.zipWith (fun (n : Node) ps => { n with parents := ps }) nodes links.parents
  let overridden := (definitions.filter (·.isOverridden data)).map overriddenMessage
  let g ← (assemble (linked ++ links.leaves) (duplicates ++ overridden) : Except Failure Graph)
  Logged.emit .info (g.summary m.name)
  return g

end Graph

end BayesGraph
