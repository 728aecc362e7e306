import Workflows.Graph.Adjacency
import Workflows.Workflow.Codec

/-!
Structural measures of a graph: its size, the degrees of its nodes and the
longest distance from a node that nothing leads to.
-/

namespace Workflows

structure Metrics where
  nodeCount : Nat
  edgeCount : Nat
  averageDegree : Binary64
  longestDistance : Nat
  cyclomatic : Nat
  bottlenecks : List String
  isolated : List String
  deriving DecidableEq, Repr

def Binary64.twoDecimals? (x : Binary64) : Option Binary64 := do
  let hundredfold ← x.mul? (.ofNat 100)
  (Binary64.ofInt hundredfold.round).div? (.ofNat 100)

namespace Graph

def averageDegree (g : Graph) : Binary64 :=
  let exact : Option Binary64 := do
    let doubled ← (Binary64.ofNat 2).mul? (.ofNat g.edges.length)
    (← doubled.div? (.ofNat g.nodes.length)).twoDecimals?
  if g.nodes.isEmpty then .zero false else exact.getD (.zero false)

def connectedDegrees (g : Graph) : List Nat :=
  (g.nodes.map fun n => g.degree n.id).filter fun d => 0 < d

def meanDegree? (g : Graph) : Option Binary64 :=
  let degrees := g.connectedDegrees
  if degrees.isEmpty then none
  else (Binary64.ofNat (degrees.foldl (· + ·) 0)).div? (.ofNat degrees.length)

def bottlenecks (g : Graph) : List String :=
  match g.meanDegree? with
  | some mean =>
      (g.nodes.filter fun n => mean.lt (.ofNat (g.degree n.id))).map Node.id
  | none => []

def isolated (g : Graph) : List String :=
  (g.nodes.filter fun n => g.degree n.id == 0).map Node.id

/-- Breadth-first search: the ids reached, each with its distance from the
nearest source.  The queue holds the ids that are reached and not yet left. -/
def sweep (successors : String → List String) :
    Nat → (queue reached : List (String × Nat)) → List (String × Nat)
  | 0, _, reached => reached
  | _, [], reached => reached
  | fuel + 1, (id, distance) :: queue, reached =>
      let fresh :=
        ((successors id).filter fun next => (reached.lookup next).isNone).map
        fun next => (next, distance + 1)
      sweep successors fuel (queue ++ fresh) (reached ++ fresh)

/-- The nodes that no edge enters, or else the first node. -/
def sources (a : Adjacency) (g : Graph) : List String :=
  match a.roots with
  | [] => g.ids.take 1
  | roots => roots

def distances (g : Graph) : List (String × Nat) :=
  let adjacency := Adjacency.ofGraph g
  let start := (distinct (sources adjacency g)).map fun id => (id, 0)
  sweep adjacency.successors (g.nodes.length + 1) start start

def longestDistance (g : Graph) : Nat := (g.distances.map Prod.snd).foldl max 0

end Graph

namespace Metrics

def ofGraph (g : Graph) : Metrics where
  nodeCount := g.nodes.length
  edgeCount := g.edges.length
  averageDegree := g.averageDegree
  longestDistance := g.longestDistance
  cyclomatic := g.edges.length + 2 - g.nodes.length
  bottlenecks := g.bottlenecks
  isolated := g.isolated

def toJson (m : Metrics) : Json :=
  .obj [("nodeCount", .int m.nodeCount), ("edgeCount", .int m.edgeCount),
    ("avgDegree", .real m.averageDegree),
    ("maxPathLength", .int m.longestDistance),
    ("cyclomaticComplexity", .int m.cyclomatic),
    ("bottleneckNodes", strings m.bottlenecks),
    ("isolatedNodes", strings m.isolated)]

end Metrics

end Workflows
