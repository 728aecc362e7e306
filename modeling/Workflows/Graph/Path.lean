import Workflows.Graph.Adjacency

/-!
Execution paths: the paths from the entry node to the exit node on which no id
repeats.  They are enumerated by backtracking; a path ends at the exit node.
-/

namespace Workflows

structure ExecutionPath where
  nodes : List String
  stepCount : Nat
  deriving DecidableEq, Repr

/-- The state of an enumeration: the current path with its last id first, the
ids on it, for each of them the successors still to be tried, and the paths
found, the newest first. -/
structure Enumeration where
  path : List String
  onPath : List String
  pending : List (List String)
  found : List (List String)
  deriving DecidableEq, Repr

namespace Enumeration

def start (successors : String → List String) (entry : String) : Enumeration :=
  ⟨[entry], [entry], [successors entry], []⟩

def isDone (s : Enumeration) : Bool := s.pending.isEmpty

def step (successors : String → List String) (exit : String) (s : Enumeration) :
    Enumeration :=
  match s.pending with
  | [] => s
  | [] :: below =>
      match s.path with
      | [] => { s with pending := below }
      | last :: path =>
          { s with
            path := path, onPath := s.onPath.erase last, pending := below }
  | (next :: rest) :: below =>
      if next ∈ s.onPath then { s with pending := rest :: below }
      else
        let path := next :: s.path
        { path := path
          onPath := next :: s.onPath
          pending := successors next :: rest :: below
          found := if next = exit then path.reverse :: s.found else s.found }

def run (successors : String → List String) (exit : String) :
    Nat → Enumeration → Enumeration
  | 0, s => s
  | fuel + 1, s =>
      if s.isDone then s else run successors exit fuel (step successors exit s)

end Enumeration

namespace Graph

def onward (a : Adjacency) (exit id : String) : List String :=
  if id = exit then [] else a.successors id

/-- A path holds no more ids than there are nodes, and from each of them there
are no more ways on than there are edges. -/
def pathBound (g : Graph) : Nat :=
  Nat.pow (g.edges.length + 2) (g.nodes.length + 1)

def enumeration (g : Graph) (entry exit : String) : Enumeration :=
  let successors := onward (Adjacency.ofGraph g) exit
  (Enumeration.start successors entry).run successors exit g.pathBound

def executionPaths (g : Graph) : List ExecutionPath :=
  match g.source?, g.sink? with
  | some entry, some exit =>
      let steps := g.idsOf .step
      (g.enumeration entry.id exit.id).found.reverse.map fun path =>
        ⟨path, path.countP fun id => steps.contains id⟩
  | _, _ => []

end Graph

end Workflows
