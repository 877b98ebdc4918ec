import BayesGraph.Registry
import BayesGraph.Unrolled

/-!
# Dependency graphs

The graph of a model has one node for each scalar variable. A node is observed, a parameter or
logical, and its parents are the variables that its definition refers to. Nodes are numbered in the
order of their definitions, data leaves last, and the edges lead from parents to children.

`order?` lists the nodes so that parents come first, and always takes the smallest number that is
ready; it exists unless there is a cycle, and `findCycle` finds one then.
-/

set_option autoImplicit false

namespace BayesGraph

/-- The part that a node has in the density. -/
inductive Role where
  /-- A known value, with a term in the density if it has a distribution. -/
  | observed (value : Number Double) (dist : Option Dist)
  /-- A coordinate of the parameter vector. -/
  | parameter (dist : Dist)
  /-- A value that is computed from the parents. -/
  | logical (expr : Expr)

namespace Role

/-- The distribution of a stochastic node. -/
def dist? : Role → Option Dist
  | .observed _ d => d
  | .parameter d => some d
  | .logical _ => none

/-- The expression of a logical node. -/
def expr? : Role → Option Expr
  | .logical e => some e
  | _ => none

/-- The value of an observed node. -/
def value? : Role → Option (Number Double)
  | .observed v _ => some v
  | _ => none

/-- Is the node a parameter? -/
def isParameter : Role → Bool
  | .parameter _ => true
  | _ => false

/-- Is the node a logical one? -/
def isLogical : Role → Bool
  | .logical _ => true
  | _ => false

/-- Is the node observed? -/
def isObserved : Role → Bool
  | .observed _ _ => true
  | _ => false

/-- The role by name. -/
def text : Role → String
  | .observed _ _ => "observed"
  | .parameter _ => "parameter"
  | .logical _ => "logical"

end Role

/-- A scalar variable of the graph. -/
structure Node where
  id : Identity
  role : Role
  /-- The numbers of the nodes that the definition refers to. -/
  parents : List Nat := []
  /-- A label for the support of a parameter, unless that is the real line. -/
  support : Option SupportKind := none
  /-- The text of the defining statement; leaves of data have none. -/
  statement : Option String := none

namespace Node

/-- Does the node have a distribution? -/
def isStochastic (n : Node) : Bool := n.role.dist?.isSome

end Node

/-- A numbering of nodes by parents: entry `i` lists the parents of node `i`. -/
abbrev ParentLists : Type := List (List Nat)

namespace ParentLists

/-- The parents of a node. -/
def parents (g : ParentLists) (i : Nat) : List Nat := g.getD i []

/-- The children of a node, in ascending order. -/
def children (g : ParentLists) (i : Nat) : List Nat :=
  (List.range g.length).filter fun j => (g.parents j).contains i

/-- The first of the remaining nodes whose parents have all been placed. -/
def ready? (g : ParentLists) (placed remaining : List Nat) : Option Nat :=
  remaining.find? fun i => (g.parents i).all placed.contains

/-- Places nodes one after the other, always the first one that is ready; `fuel` bounds their
number. -/
def place (g : ParentLists) (fuel : Nat) (placed remaining : List Nat) : Option (List Nat) :=
  match fuel with
  | 0 => if remaining.isEmpty then some placed else none
  | k + 1 =>
    if remaining.isEmpty then some placed
    else
      match ready? g placed remaining with
      | none => none
      | some i => place g k (placed ++ [i]) (remaining.erase i)

/-- All nodes, parents first, the smallest number that is ready at each step; none if there is a
cycle. -/
def order? (g : ParentLists) : Option (List Nat) :=
  g.place g.length [] (List.range g.length)

/-- The state of the search for a cycle: nodes that lie on none, or the cycle found. -/
inductive Search where
  | clear (explored : List Nat)
  | found (cycle : List Nat)

/-- Searches from a node along edges to children, in ascending order. The path leads to the node,
last step first. The first edge back to the path closes the cycle, which begins and ends at that
node. -/
def search (g : ParentLists) : Nat → List Nat → List Nat → Nat → Search
  | 0, _, explored, _ => .clear explored
  | fuel + 1, path, explored, i =>
    let trail := i :: path
    let visit (s : Search) (j : Nat) : Search :=
      match s with
      | .found c => .found c
      | .clear explored =>
        if trail.contains j then .found ((trail.takeWhile (· ≠ j) ++ [j]).reverse ++ [j])
        else if explored.contains j then .clear explored
        else search g fuel trail explored j
    match (g.children i).foldl visit (.clear explored) with
    | .found c => .found c
    | .clear explored => .clear (i :: explored)

/-- The first cycle that the search finds, its first node repeated at the end. -/
def findCycle (g : ParentLists) : Option (List Nat) :=
  let visit (s : Search) (i : Nat) : Search :=
    match s with
    | .found c => .found c
    | .clear explored =>
      if explored.contains i then .clear explored else search g (g.length + 1) [] explored i
  match (List.range g.length).foldl visit (.clear []) with
  | .found c => some c
  | .clear _ => none

end ParentLists

/-- The dependency graph of a model. -/
structure Graph where
  nodes : List Node
  /-- The numbers of all nodes, parents first. -/
  order : List Nat
  /-- The numbers of the parameters, in this order. -/
  parameters : List Nat
  warnings : List String := []

namespace Graph

/-- Number of coordinates of the parameter vector. -/
def dimension (g : Graph) : Nat := g.parameters.length

/-- Number of nodes. -/
def size (g : Graph) : Nat := g.nodes.length

/-- The number of the node of an identity. -/
def index? (g : Graph) (id : Identity) : Option Nat :=
  g.nodes.findIdx? fun n => decide (n.id = id)

/-- Is there a node for the identity? -/
def contains (g : Graph) (id : Identity) : Bool := (g.index? id).isSome

/-- The parents of all nodes. -/
def parentLists (g : Graph) : ParentLists := g.nodes.map (·.parents)

/-- The identities of some nodes. -/
def identities (g : Graph) (is : List Nat) : List Identity :=
  is.filterMap fun i => (g.nodes[i]?).map (·.id)

/-- The identities of the parameters, in the order of the parameter vector. -/
def parameterNames (g : Graph) : List Identity := g.identities g.parameters

/-- The nodes that edges in one direction lead to from a node, logical nodes being passed through
up to their own neighbours. -/
def stochasticNeighbours (g : Graph) (next : Nat → List Nat) : Nat → Nat → List Nat
  | 0, _ => []
  | fuel + 1, i =>
    (next i).flatMap fun j =>
      match g.nodes[j]? with
      | none => []
      | some n =>
        if n.role.isLogical then stochasticNeighbours g next fuel j
        else if n.isStochastic then [j] else []

/-- The closest stochastic ancestors of a node. -/
def stochasticParents (g : Graph) (i : Nat) : List Nat :=
  g.stochasticNeighbours g.parentLists.parents g.size i

/-- The closest stochastic descendants of a node. -/
def stochasticChildren (g : Graph) (i : Nat) : List Nat :=
  g.stochasticNeighbours g.parentLists.children g.size i

/-- The Markov blanket of a node: its closest stochastic ancestors and descendants, and the other
closest stochastic ancestors of these descendants, in ascending order. -/
def markovBlanket (g : Graph) (i : Nat) : List Nat :=
  let children := g.stochasticChildren i
  let members := g.stochasticParents i ++ children ++ children.flatMap g.stochasticParents
  (List.range g.size).filter fun j => decide (j ≠ i) && members.contains j

end Graph

end BayesGraph
