import Workflows.Graph.Basic

/-!
Which node follows which.  An index has one entry for each node; an edge between
two known ids is entered at the first node of its source and of its target, the
newest edge first.
-/

namespace Workflows

/-- The first occurrence of each item, in order. -/
def distinct {α : Type} [DecidableEq α] : List α → List α
  | [] => []
  | a :: rest => a :: (distinct rest).filter fun b => b ≠ a

/-- A node of the index: the targets of its outgoing edges, and whether some
edge enters it. -/
structure Vertex where
  id : String
  outgoing : List String
  isEntered : Bool
  deriving DecidableEq, Repr

def Vertex.updateFirst (id : String) (f : Vertex → Vertex) :
    List Vertex → List Vertex
  | [] => []
  | v :: rest => if v.id = id then f v :: rest else v :: updateFirst id f rest

structure Adjacency where
  vertices : List Vertex
  deriving Repr

namespace Adjacency

def contains (a : Adjacency) (id : String) : Bool :=
  a.vertices.any fun v => v.id == id

def insert (a : Adjacency) (source target : String) : Adjacency :=
  if a.contains source && a.contains target then
    let leaving := Vertex.updateFirst source
      (fun v => { v with outgoing := target :: v.outgoing }) a.vertices
    ⟨Vertex.updateFirst target (fun v => { v with isEntered := true }) leaving⟩
  else a

def ofGraph (g : Graph) : Adjacency :=
  g.edges.foldl (fun a e => a.insert e.source e.target) ⟨g.ids.map fun id =>
    ⟨id, [], false⟩⟩

/-- The distinct ids that edges from the given id lead to, in the order of the
edges. -/
def successors (a : Adjacency) (id : String) : List String :=
  match a.vertices.find? fun v => v.id == id with
  | some v => distinct v.outgoing.reverse
  | none => []

def roots (a : Adjacency) : List String :=
  (a.vertices.filter fun v => !v.isEntered).map Vertex.id

end Adjacency

end Workflows
