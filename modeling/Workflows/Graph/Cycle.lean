import Workflows.Graph.Adjacency

/-!
Cycles by depth-first search.  The search walks from each root in turn and keeps
the current path as a stack of frames.  A successor that is on the path closes a
cycle: the frames from that node on, and the node once more.  A node is entered
once, whichever root or path leads to it first.
-/

namespace Workflows.Cycle

/-- A node on the current path and those of its successors that are still to be
tried. -/
structure Frame (α : Type) where
  node : α
  pending : List α
  deriving Repr

/-- The state of a search: roots still to walk from, the path with its last node
first, the depth of each node on the path, and the nodes entered and cycles
found so far, the newest first. -/
structure Search (α : Type) where
  roots : List α
  frames : List (Frame α)
  depths : List (α × Nat)
  entered : List α
  found : List (List α)
  deriving Repr

namespace Search

variable {α : Type} [DecidableEq α]

def start (roots : List α) : Search α := ⟨roots, [], [], [], []⟩

def isDone (s : Search α) : Bool := s.roots.isEmpty && s.frames.isEmpty

def depth? (s : Search α) (node : α) : Option Nat := s.depths.lookup node

def enter (successors : α → List α) (s : Search α) (node : α) : Search α :=
  { s with
    frames := ⟨node, successors node⟩ :: s.frames
    depths := (node, s.frames.length) :: s.depths
    entered := node :: s.entered }

/-- The path from the given depth on, and its first node, `closing`, once
more. -/
def closed (s : Search α) (depth : Nat) (closing : α) : List α :=
  (s.frames.take (s.frames.length - depth)).reverse.map Frame.node ++ [closing]

def step (successors : α → List α) (s : Search α) : Search α :=
  match s.frames with
  | [] =>
      match s.roots with
      | [] => s
      | root :: roots =>
          if root ∈ s.entered then { s with roots := roots }
          else enter successors { s with roots := roots } root
  | ⟨node, []⟩ :: below =>
      { s with
        frames := below, depths := s.depths.filter fun entry => entry.1 ≠ node }
  | ⟨node, next :: pending⟩ :: below =>
      let s := { s with frames := ⟨node, pending⟩ :: below }
      match s.depth? next with
      | some depth => { s with found := s.closed depth next :: s.found }
      | none => if next ∈ s.entered then s else enter successors s next

def run (successors : α → List α) : Nat → Search α → Search α
  | 0, s => s
  | fuel + 1, s =>
      if s.isDone then s else run successors fuel (step successors s)

end Search

variable {α : Type} [DecidableEq α]

/-- A search takes a step for each root, and for each node entered one step for
every successor and one to leave it; `nodes` are to hold all nodes that can be
reached. -/
def bound (successors : α → List α) (nodes roots : List α) : Nat :=
  nodes.foldl (fun steps n => steps + (successors n).length + 1) roots.length

def search (successors : α → List α) (nodes roots : List α) : Search α :=
  (Search.start roots).run successors (bound successors nodes roots)

def find (successors : α → List α) (nodes roots : List α) : List (List α) :=
  (search successors nodes roots).found.reverse

def entered (successors : α → List α) (nodes roots : List α) : List α :=
  (search successors nodes roots).entered.reverse

end Workflows.Cycle

namespace Workflows

def Graph.cycles (g : Graph) : List (List String) :=
  let adjacency := Adjacency.ofGraph g
  Cycle.find adjacency.successors g.ids g.ids

end Workflows
