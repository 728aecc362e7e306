import Workflows.Graph.Issue
import Workflows.Number.Binary64
import Workflows.Workflow.Basic

/-!
Workflow graphs.  Nodes and edges are lists in the order of their making; edges
name their ends by node id, and nothing keeps an id from being unknown or from
standing for several nodes, of which it then means the first.
-/

namespace Workflows

inductive NodeKind where
  | start
  | finish
  | step
  | agent
  | workflow
  | resource
  | condition
  deriving DecidableEq, Repr

namespace NodeKind

def name : NodeKind → String
  | start => "start"
  | finish => "end"
  | step => "step"
  | agent => "agent"
  | workflow => "workflow"
  | resource => "resource"
  | condition => "condition"

def all : List NodeKind :=
  [start, finish, step, agent, workflow, resource, condition]

def ofDependency : DependencyKind → NodeKind
  | .agent => agent
  | .workflow => workflow
  | .resource => resource

def dependency? : NodeKind → Option DependencyKind
  | agent => some .agent
  | workflow => some .workflow
  | resource => some .resource
  | _ => none

@[simp] theorem dependency?_ofDependency (k : DependencyKind) :
    (ofDependency k).dependency? = some k := by
  cases k <;> rfl

end NodeKind

inductive EdgeKind where
  | sequence
  | dependency
  | condition
  | dataFlow
  deriving DecidableEq, Repr

namespace EdgeKind

def name : EdgeKind → String
  | sequence => "sequence"
  | dependency => "dependency"
  | condition => "condition"
  | dataFlow => "data_flow"

def all : List EdgeKind := [sequence, dependency, condition, dataFlow]

end EdgeKind

structure Position where
  x : Binary64
  y : Binary64
  deriving DecidableEq, Repr

structure NodeMetadata where
  position : Option Position
  category : Option String
  complexity : Option Nat
  executionTime : Option Nat
  inputs : List String
  outputs : List String
  deriving DecidableEq, Repr

def NodeMetadata.empty : NodeMetadata := ⟨none, none, none, none, [], []⟩

structure Node where
  id : String
  kind : NodeKind
  name : String
  description : Option String
  path : Option String
  validated : Bool
  issues : List Issue
  metadata : NodeMetadata
  deriving DecidableEq, Repr

namespace Node

def bare (id : String) (kind : NodeKind) (name : String) : Node :=
  ⟨id, kind, name, none, none, false, [], .empty⟩

def placed (n : Node) (x y : Binary64) : Node :=
  { n with metadata := { n.metadata with position := some ⟨x, y⟩ } }

def isInvalid (n : Node) : Bool := n.issues.any Issue.isError

end Node

structure EdgeMetadata where
  isAsync : Bool
  isParallel : Bool
  deriving DecidableEq, Repr

def EdgeMetadata.empty : EdgeMetadata := ⟨false, false⟩

/-- An edge.  `pathResolved` is known where one of its ends has a path. -/
structure Edge where
  id : String
  source : String
  target : String
  kind : EdgeKind
  label : Option String
  condition : Option String
  validated : Bool
  pathResolved : Option Bool
  metadata : EdgeMetadata
  deriving DecidableEq, Repr

def Edge.bare (id source target : String) (kind : EdgeKind) : Edge :=
  ⟨id, source, target, kind, none, none, false, none, .empty⟩

/-- Measures of a graph.  A cycle lists node ids and ends where it starts. -/
structure GraphMetadata where
  complexity : Nat
  totalSteps : Nat
  dependencyCount : Nat
  status : ValidationStatus
  lastValidated : Option String
  cycles : List (List String)
  deriving DecidableEq, Repr

structure Graph where
  id : String
  specId : String
  name : String
  nodes : List Node
  edges : List Edge
  metadata : GraphMetadata
  deriving DecidableEq, Repr

namespace Graph

def node? (g : Graph) (id : String) : Option Node :=
  g.nodes.find? fun n => n.id == id

def hasNode (g : Graph) (id : String) : Bool := g.nodes.any fun n => n.id == id

def ids (g : Graph) : List String := g.nodes.map Node.id

/-- The first start node, or else the first node. -/
def source? (g : Graph) : Option Node :=
  (g.nodes.find? fun n => n.kind == .start) <|> g.nodes.head?

/-- The first end node, or else the last node. -/
def sink? (g : Graph) : Option Node :=
  (g.nodes.find? fun n => n.kind == .finish) <|> g.nodes.getLast?

def idsOf (g : Graph) (kind : NodeKind) : List String :=
  (g.nodes.filter fun n => n.kind == kind).map Node.id

def nodeCount (g : Graph) (kind : NodeKind) : Nat :=
  g.nodes.countP fun n => n.kind == kind

def edgeCount (g : Graph) (kind : EdgeKind) : Nat :=
  g.edges.countP fun e => e.kind == kind

/-- The number of ends of edges at a node; an edge to itself has two. -/
def degree (g : Graph) (id : String) : Nat :=
  g.edges.countP (fun e => e.source == id) +
    g.edges.countP (fun e => e.target == id)

theorem hasNode_eq_true_iff {g : Graph} {id : String} :
    g.hasNode id = true ↔ id ∈ g.ids := by
  simp [hasNode, ids]

end Graph

end Workflows
