import Mathlib.Data.List.Basic
import Workflows.Proofs.Graph.Successors

/-!
# Successors by positions

An index may also number the nodes and keep edges between their numbers, an id
standing for the first of its nodes.  Of the store of the edges it relies on one
thing: a new edge comes before the older ones of its source.  Read from the
oldest on and without repetition, what the store holds of a node are the same
successors, and these are the targets of its edges in the order of the edges.
-/

namespace Workflows

/-! ## Items not seen before -/

def keepNew : (seen items : List String) → List String
  | _, [] => []
  | seen, item :: rest =>
      if item ∈ seen then keepNew seen rest
      else item :: keepNew (item :: seen) rest

theorem keepNew_eq (seen items : List String) :
    keepNew seen items = (distinct items).filter fun item => item ∉ seen := by
  induction items generalizing seen with
  | nil => rfl
  | cons item rest ih =>
      rw [keepNew, distinct]
      by_cases hseen : item ∈ seen
      · rw [if_pos hseen, ih, List.filter_cons_of_neg (by simpa using hseen),
          List.filter_filter]
        refine List.filter_congr fun other _ => ?_
        by_cases heq : other = item <;> simp [heq, hseen]
      · rw [if_neg hseen, ih, List.filter_cons_of_pos (by simpa using hseen),
          List.filter_filter]
        refine congrArg _ (List.filter_congr fun other _ => ?_)
        by_cases heq : other = item <;> simp [heq]

theorem keepNew_nil (items : List String) :
    keepNew [] items = distinct items := by
  simp [keepNew_eq]

/-! ## Stores of edges -/

/-- A store of edges between numbered nodes. -/
structure EdgeStore (σ : Type) where
  empty : σ
  addEdge : σ → (source target : Nat) → σ
  neighbors : σ → Nat → List Nat

namespace EdgeStore

/-- The neighbors of a node are the targets of its edges, each edge before the
older ones. -/
structure NewestFirst {σ : Type} (store : EdgeStore σ) : Prop where
  neighbors_empty : ∀ node, store.neighbors store.empty node = []
  neighbors_addEdge : ∀ s source target node,
    store.neighbors (store.addEdge s source target) node =
      if source = node then target :: store.neighbors s node
      else store.neighbors s node

end EdgeStore

namespace Graph

/-- The number of an id, which is the position of the first node that has it. -/
def position? (g : Graph) (id : String) : Option Nat :=
  if id ∈ g.ids then some (g.ids.idxOf id) else none

section

variable {g : Graph} {id : String}

theorem position?_of_mem (h : id ∈ g.ids) :
    g.position? id = some (g.ids.idxOf id) :=
  if_pos h

theorem position?_of_notMem (h : id ∉ g.ids) : g.position? id = none :=
  if_neg h

end

end Graph

namespace EdgeStore

variable {σ : Type}

def enter (store : EdgeStore σ) (g : Graph) (s : σ) (e : Edge) : σ :=
  match g.position? e.source, g.position? e.target with
  | some source, some target => store.addEdge s source target
  | _, _ => s

def ofGraph (store : EdgeStore σ) (g : Graph) : σ :=
  g.edges.foldl (store.enter g) store.empty

/-- The ids of the neighbors, each once and from the oldest edge on; none are
found if a number belongs to no node. -/
def successors? (store : EdgeStore σ) (g : Graph) (id : String) :
    Option (List String) :=
  match g.position? id with
  | none => some []
  | some position =>
      ((store.neighbors (store.ofGraph g) position).mapM fun node =>
        g.ids[node]?).map fun ids => keepNew [] ids.reverse

section

variable {store : EdgeStore σ} {g : Graph} {id : String}

theorem enter_of_mem {s : σ} {e : Edge} (hsource : e.source ∈ g.ids)
    (htarget : e.target ∈ g.ids) :
    store.enter g s e =
      store.addEdge s (g.ids.idxOf e.source) (g.ids.idxOf e.target) := by
  rw [enter, Graph.position?_of_mem hsource, Graph.position?_of_mem htarget]

theorem enter_of_not_mem {s : σ} {e : Edge}
    (h : ¬ (e.source ∈ g.ids ∧ e.target ∈ g.ids)) :
    store.enter g s e = s := by
  rw [enter]
  rcases not_and_or.mp h with hsource | htarget
  · rw [Graph.position?_of_notMem hsource]
  · rw [Graph.position?_of_notMem htarget]
    cases g.position? e.source <;> rfl

theorem mapM_neighbors_foldl (h : store.NewestFirst) (hid : id ∈ g.ids)
    (edges : List Edge) {s : σ} {known : List String}
    (hknown : (store.neighbors s (g.ids.idxOf id)).mapM (fun node =>
      g.ids[node]?) = some known) :
    (store.neighbors (edges.foldl (store.enter g) s) (g.ids.idxOf id)).mapM
        (fun node => g.ids[node]?) =
      some (((edges.filter fun e => e.source == id && g.hasNode e.source &&
        g.hasNode e.target).map Edge.target).reverse ++ known) := by
  induction edges generalizing s known with
  | nil => exact hknown
  | cons e edges ih =>
      rw [List.foldl_cons, List.filter_cons]
      by_cases hends : e.source ∈ g.ids ∧ e.target ∈ g.ids
      · obtain ⟨hsource, htarget⟩ := hends
        rw [enter_of_mem hsource htarget]
        by_cases heq : e.source = id
        · have hfirst : (store.neighbors (store.addEdge s (g.ids.idxOf e.source)
              (g.ids.idxOf e.target)) (g.ids.idxOf id)).mapM
              (fun node => g.ids[node]?) =
                some (e.target :: known) := by
            rw [h.neighbors_addEdge, heq, if_pos rfl, List.mapM_cons,
              List.getElem?_idxOf htarget, hknown]
            rfl
          rw [ih hfirst]
          simp [heq, hid, htarget, Graph.hasNode_eq_true_iff]
        · -- different ids stand for different nodes, so the edge is elsewhere
          have hother : g.ids.idxOf e.source ≠ g.ids.idxOf id := fun hidx =>
            heq ((List.idxOf_inj hsource).mp hidx)
          rw [ih (by rwa [h.neighbors_addEdge, if_neg hother])]
          simp [heq]
      · have hleft : ¬ (e.source == id && g.hasNode e.source &&
            g.hasNode e.target) = true := by
          simp only [Bool.and_eq_true, Graph.hasNode_eq_true_iff]
          exact fun hall => hends ⟨hall.1.2, hall.2⟩
        rw [enter_of_not_mem hends, ih hknown, if_neg hleft]

theorem successors?_eq (h : store.NewestFirst) (g : Graph) (id : String) :
    store.successors? g id = some ((Adjacency.ofGraph g).successors id) := by
  rw [successors?]
  by_cases hid : id ∈ g.ids
  · have hnone : (store.neighbors store.empty (g.ids.idxOf id)).mapM
        (fun node => g.ids[node]?) = some [] := by
      rw [h.neighbors_empty]
      rfl
    rw [Graph.position?_of_mem hid]
    dsimp only
    rw [ofGraph, mapM_neighbors_foldl h hid g.edges hnone, Option.map_some,
      List.append_nil, List.reverse_reverse, keepNew_nil,
      Adjacency.successors_ofGraph, Graph.edgesFrom]
  · rw [Graph.position?_of_notMem hid, Adjacency.successors_of_notMem hid]

end

/-- Whatever store keeps the edges, if only it puts new edges first, the
successors of an id are found, and they are the targets of its edges with two
known ends, in the order of the edges, each where it occurs first.  An id
without a node has none. -/
theorem successors_firstOccurrences {store : EdgeStore σ}
    (h : store.NewestFirst) (g : Graph) (id : String) :
    store.successors? g id = some ((Adjacency.ofGraph g).successors id) ∧
      FirstOccurrences
        ((g.edges.filter fun e => e.source = id ∧ e.source ∈ g.ids ∧
          e.target ∈ g.ids).map Edge.target)
        ((Adjacency.ofGraph g).successors id) ∧
      (id ∉ g.ids → (Adjacency.ofGraph g).successors id = []) := by
  have hedges : (g.edges.filter fun e => e.source = id ∧
      e.source ∈ g.ids ∧ e.target ∈ g.ids) =
      g.edgesFrom id := by
    refine List.filter_congr fun e _ => ?_
    rw [Bool.eq_iff_iff]
    simp [Graph.hasNode_eq_true_iff, and_assoc]
  refine ⟨successors?_eq h g id, ?_, Adjacency.successors_of_notMem⟩
  rw [hedges, Adjacency.successors_ofGraph]
  exact firstOccurrences_distinct _

def pairs : EdgeStore (List (Nat × Nat)) where
  empty := []
  addEdge s source target := (source, target) :: s
  neighbors s node := (s.filter fun ends => ends.1 = node).map Prod.snd

theorem newestFirst_pairs : pairs.NewestFirst where
  neighbors_empty _ := rfl
  neighbors_addEdge s source target node := by
    by_cases heq : source = node <;> simp [pairs, heq]

def tangled : Graph where
  id := "graph-tangled"
  specId := "tangled"
  name := "Tangled"
  nodes := ["a", "b", "a", "c"].map fun id => .bare id .step id
  edges := [("a", "c"), ("gone", "a"), ("b", "a"), ("a", "b"), ("a", "gone"),
    ("a", "c"), ("a", "a")].map fun (source, target) =>
    .bare (source ++ target) source target .sequence
  metadata := ⟨0, 4, 0, .invalid, none, []⟩

theorem successors_firstOccurrences_tangled :
    pairs.NewestFirst ∧ pairs.successors? tangled "a" = some ["c", "b", "a"] ∧
      FirstOccurrences ["c", "b", "c", "a"] ["c", "b", "a"] ∧
      "gone" ∉ tangled.ids ∧ (Adjacency.ofGraph tangled).successors "gone" =
        [] := by
  have hsuccessors : (Adjacency.ofGraph tangled).successors "a" =
      ["c", "b", "a"] := by decide
  have hgone : "gone" ∉ tangled.ids := by decide
  obtain ⟨hfound, hfirst, -⟩ :=
    successors_firstOccurrences newestFirst_pairs tangled "a"
  obtain ⟨-, -, hnone⟩ :=
    successors_firstOccurrences newestFirst_pairs tangled "gone"
  rw [hsuccessors] at hfound hfirst
  exact ⟨newestFirst_pairs, hfound, hfirst, hgone, hnone hgone⟩

end EdgeStore

end Workflows
