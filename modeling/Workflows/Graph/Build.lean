import Workflows.Graph.Cycle
import Workflows.Json.Decode
import Workflows.Workflow.Reference

/-!
The graph of a workflow.  Its nodes are the start, the steps in order, the end
and the declared dependencies in order.  Sequence edges chain the start, the
steps and the end; condition edges lead to the targets that a step names other
than the step after it; dependency edges lead from the steps to the dependencies
that they use.
-/

namespace Workflows.Graph

def startId : String := "start"

def endId : String := "end"

def spacing : Nat := 200

def upperRow : Binary64 := .ofNat 100

def lowerRow : Binary64 := .ofNat 300

def column (position : Nat) : Binary64 := .ofNat (position * spacing)

def startNode : Node :=
  (Node.bare startId .start "Start").placed (column 0) upperRow

def endNode (stepCount : Nat) : Node :=
  (Node.bare endId .finish "End").placed (column (stepCount + 1)) upperRow

def countField? (metadata : List (String × Json)) (name : String) :
    Option Nat :=
  (Json.member? metadata name).bind Json.asCount?

def maxComplexity : Nat := Nat.pow 2 32 - 1

def nodeOfStep (position : Nat) (s : Step) : Node where
  id := s.id
  kind := if s.isCondition then .condition else .step
  name := s.name
  description := s.description
  path := none
  validated := false
  issues := []
  metadata := {
    position := some ⟨column (position + 1), upperRow⟩
    category := some s.kind
    complexity := (countField? s.metadata "complexity").map fun n =>
      min n maxComplexity
    executionTime :=
      countField? s.metadata "executionTime" <|> countField?
        s.metadata "timeout"
    inputs := s.resources.getD []
    outputs := s.targets }

/-- The id of a dependency node: the kind and the name, and the position where
that is taken. -/
def dependencyId (taken : List String) (position : Nat) (d : Dependency) :
    String :=
  let base := d.kind.name ++ "-" ++ d.name
  if base ∈ taken then base ++ "-" ++ toString (position + 1) else base

def nodeOfDependency (id : String) (position : Nat) (d : Dependency) :
    Node where
  id := id
  kind := .ofDependency d.kind
  name := d.name
  description := some
    ((if d.required then "Required" else "Optional") ++ " " ++ d.kind.name ++
      " dependency")
  path := d.path
  validated := false
  issues := []
  metadata := { NodeMetadata.empty with
    position := some ⟨column position, lowerRow⟩
    category := some d.kind.name }

def dependencyNodesFrom (taken : List String) (position : Nat) :
    List Dependency → List Node
  | [] => []
  | d :: rest =>
      let id := dependencyId taken position d
      nodeOfDependency id position d :: dependencyNodesFrom (id :: taken)
      (position + 1) rest

def chainNodes (steps : List Step) : List Node :=
  startNode :: (steps.mapIdx nodeOfStep ++ [endNode steps.length])

def dependencyNodes (w : Workflow) : List Node :=
  dependencyNodesFrom ((chainNodes w.steps).map Node.id) 0 w.dependencies

def chainEdge (source target : String) : Edge :=
  Edge.bare ("seq-" ++ source ++ "-" ++ target) source target .sequence

def chainEdges : List String → List Edge
  | source :: target :: rest =>
      chainEdge source target :: chainEdges (target :: rest)
  | _ => []

/-- The edges that chain the start, the steps and the end; without steps there
are none. -/
def sequenceEdges (steps : List Step) : List Edge :=
  if steps.isEmpty then []
  else chainEdges (startId :: (steps.map Step.id ++ [endId]))

def conditionEdge (s : Step) (target : String) : Edge :=
  { Edge.bare ("cond-" ++ s.id ++ "-" ++ target) s.id target .condition with
    label := some target
    condition := s.conditions.bind Json.asString?
    metadata := ⟨false, s.isBranching⟩ }

/-- The edges to the targets of each step, the next step left out. -/
def conditionEdges : List Step → List Edge
  | [] => []
  | s :: rest =>
      let following := rest.head?.map Step.id
      (s.targets.filter fun target => some target != following).map
      (conditionEdge s) ++ conditionEdges rest

def dependencyEdge (s : Step) (node : Node) : Edge :=
  Edge.bare ("dep-" ++ s.id ++ "-" ++ node.id) s.id node.id .dependency

def dependencyEdges (w : Workflow) : List Edge :=
  (w.dependencies.zip (dependencyNodes w)).flatMap fun (d, node) =>
    (w.steps.filter fun s => s.references d).map fun s => dependencyEdge s node

/-- Twenty times the edges per node, ten times the cyclomatic number and fifteen
times the number of conditions, rounded at each step, between 0 and 100. -/
def complexityScore (g : Graph) : Nat :=
  let nodes := g.nodes.length
  let edges := g.edges.length
  let score : Option Binary64 := do
    let average ← (Binary64.ofNat edges).div? (.ofNat nodes)
    let degree ← average.mul? (.ofNat 20)
    let cyclomatic ← (Binary64.ofInt ((edges : Int) - nodes + 2)).mul?
      (.ofNat 10)
    let conditions ← (Binary64.ofNat (g.nodeCount .condition)).mul? (.ofNat 15)
    (← degree.add? cyclomatic).add? conditions
  if nodes = 0 then 0 else min 100 ((score.map Binary64.round).getD 0).toNat

def ofWorkflow (w : Workflow) (specId : String) : Graph :=
  let g : Graph := {
    id := "graph-" ++ specId
    specId := specId
    name := w.name
    nodes := chainNodes w.steps ++ dependencyNodes w
    edges :=
      sequenceEdges w.steps ++ conditionEdges w.steps ++ dependencyEdges w
    metadata := {
      complexity := 0
      totalSteps := w.steps.length
      dependencyCount := w.dependencies.length
      status := .invalid
      lastValidated := none
      cycles := [] } }
  { g with
    metadata :=
      { g.metadata with complexity := g.complexityScore, cycles := g.cycles } }

end Workflows.Graph
