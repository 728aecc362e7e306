import Mathlib.Data.List.FinRange
import Mathlib.Data.List.ProdSigma
import Workflows.Proofs.Graph.NodeIds
import Workflows.Proofs.Graph.Successors

/-!
# The shape of a built graph

The nodes of the graph of a workflow are the start, the steps, the end and the
dependencies, each in its place.  The edges fall into three parts by kind: the
sequence goes along the start, the steps and the end, a condition edge stands
for a target of a step that is not the next step, and a dependency edge for a
dependency and a step that references it.
-/

namespace Workflows

def Step.nodeKind (s : Step) : NodeKind :=
  if s.isCondition then .condition else .step

namespace Graph

def edgesOf (g : Graph) (kind : EdgeKind) : List Edge :=
  g.edges.filter fun e => e.kind == kind

/-! ## Nodes -/

theorem length_chainNodes (steps : List Step) :
    (chainNodes steps).length = steps.length + 2 := by
  simp [chainNodes]

theorem map_kind_chainNodes (steps : List Step) :
    (chainNodes steps).map Node.kind =
      .start :: (steps.map Step.nodeKind ++ [.finish]) :=
  map_chainNodes Node.kind Step.nodeKind (fun _ _ => rfl) steps

theorem map_dependencyNodesFrom {α : Type} (seen : Node → α)
    (ofDependency : Dependency → α)
    (h : ∀ id position d, seen (nodeOfDependency id position d) =
      ofDependency d) (taken : List String) (position : Nat)
        (ds : List Dependency) :
    (dependencyNodesFrom taken position ds).map seen = ds.map ofDependency := by
  induction ds generalizing taken position with
  | nil => rfl
  | cons d rest ih =>
      rw [dependencyNodesFrom, List.map_cons, List.map_cons, h, ih]

theorem map_dependencyNodes {α : Type} (seen : Node → α)
    (ofDependency : Dependency → α)
    (h : ∀ id position d, seen (nodeOfDependency id position d) =
      ofDependency d) (w : Workflow) :
        (dependencyNodes w).map seen = w.dependencies.map ofDependency :=
  map_dependencyNodesFrom seen ofDependency h _ _ _

theorem length_dependencyNodes (w : Workflow) :
    (dependencyNodes w).length = w.dependencies.length := by
  have hlength := congrArg List.length
    (map_dependencyNodes (fun _ => ()) (fun _ => ()) (fun _ _ _ => rfl) w)
  rwa [List.length_map, List.length_map] at hlength

section Nodes

variable {w : Workflow} {specId : String}

theorem map_kind_nodes :
    (ofWorkflow w specId).nodes.map Node.kind =
      .start :: (w.steps.map Step.nodeKind ++
        .finish :: w.dependencies.map fun d => .ofDependency d.kind) := by
  have hdependencies :=
    map_dependencyNodes Node.kind (fun d => .ofDependency d.kind)
    (fun _ _ _ => rfl) w
  rw [ofWorkflow, List.map_append, map_kind_chainNodes, hdependencies]
  simp

theorem nodeCount_eq_count (g : Graph) (kind : NodeKind) :
    g.nodeCount kind = (g.nodes.map Node.kind).count kind := by
  rw [nodeCount, List.count_eq_countP, List.countP_map]
  rfl

theorem nodeKind_eq_condition_iff {s : Step} :
    s.nodeKind = .condition ↔ s.isCondition = true := by
  cases h : s.isCondition <;> simp [Step.nodeKind, h]

theorem count_map_nodeKind {steps : List Step} {kind : NodeKind}
    (hstep : kind ≠ .step) (hcondition : kind ≠ .condition) :
    (steps.map Step.nodeKind).count kind = 0 := by
  refine List.count_eq_zero.mpr fun hmem => ?_
  obtain ⟨s, -, rfl⟩ := List.mem_map.mp hmem
  cases h : s.isCondition <;> simp [Step.nodeKind, h] at hstep hcondition

theorem count_map_ofDependency {ds : List Dependency} {kind : NodeKind}
    (h : kind.dependency? = none) :
    (ds.map fun d => NodeKind.ofDependency d.kind).count kind = 0 := by
  refine List.count_eq_zero.mpr fun hmem => ?_
  obtain ⟨d, -, rfl⟩ := List.mem_map.mp hmem
  rw [NodeKind.dependency?_ofDependency] at h
  cases h

theorem nodeCount_start : (ofWorkflow w specId).nodeCount .start = 1 := by
  rw [nodeCount_eq_count, map_kind_nodes, List.count_cons_self,
    List.count_append, count_map_nodeKind (by decide) (by decide),
    List.count_cons_of_ne (by decide), count_map_ofDependency rfl]

theorem nodeCount_finish : (ofWorkflow w specId).nodeCount .finish = 1 := by
  rw [nodeCount_eq_count, map_kind_nodes, List.count_cons_of_ne (by decide),
    List.count_append, count_map_nodeKind (by decide) (by decide),
    List.count_cons_self, count_map_ofDependency rfl]

theorem nodeCount_condition :
    (ofWorkflow w specId).nodeCount .condition =
      w.steps.countP Step.isCondition := by
  have hsteps : (w.steps.map Step.nodeKind).count .condition =
      w.steps.countP Step.isCondition := by
    rw [List.count_eq_countP, List.countP_map]
    refine List.countP_congr fun s _ => ?_
    rw [Function.comp_apply, beq_iff_eq, nodeKind_eq_condition_iff]
  rw [nodeCount_eq_count, map_kind_nodes, List.count_cons_of_ne (by decide),
    List.count_append, hsteps, List.count_cons_of_ne (by decide),
    count_map_ofDependency rfl, Nat.add_zero]

end Nodes

/-! ## Edges by kind -/

theorem kind_of_mem_chainEdges {ids : List String} {e : Edge}
    (h : e ∈ chainEdges ids) :
    e.kind = .sequence := by
  induction ids with
  | nil => cases h
  | cons source rest ih =>
      cases rest with
      | nil => cases h
      | cons target rest =>
          rw [chainEdges] at h
          rcases List.mem_cons.mp h with rfl | h
          · rfl
          · exact ih h

theorem kind_of_mem_sequenceEdges {steps : List Step} {e : Edge}
    (h : e ∈ sequenceEdges steps) : e.kind = .sequence := by
  unfold sequenceEdges at h
  split at h
  · cases h
  · exact kind_of_mem_chainEdges h

theorem exists_of_mem_conditionEdges {steps : List Step} {e : Edge}
    (h : e ∈ conditionEdges steps) :
    ∃ s ∈ steps, ∃ target ∈ s.targets, e = conditionEdge s target := by
  induction steps with
  | nil => cases h
  | cons s rest ih =>
      rw [conditionEdges] at h
      rcases List.mem_append.mp h with h | h
      · obtain ⟨target, htarget, rfl⟩ := List.mem_map.mp h
        exact ⟨s, List.mem_cons_self, target, List.mem_of_mem_filter htarget,
          rfl⟩
      · obtain ⟨t, ht, he⟩ := ih h
        exact ⟨t, List.mem_cons_of_mem _ ht, he⟩

theorem kind_of_mem_conditionEdges {steps : List Step} {e : Edge}
    (h : e ∈ conditionEdges steps) : e.kind = .condition := by
  obtain ⟨s, -, target, -, rfl⟩ := exists_of_mem_conditionEdges h
  rfl

theorem exists_of_mem_dependencyEdges {w : Workflow} {e : Edge}
    (h : e ∈ dependencyEdges w) :
    ∃ s ∈ w.steps, ∃ n ∈ dependencyNodes w, e = dependencyEdge s n := by
  obtain ⟨⟨d, n⟩, hpair, h⟩ := List.mem_flatMap.mp h
  obtain ⟨s, hs, rfl⟩ := List.mem_map.mp h
  exact ⟨s, List.mem_of_mem_filter hs, n, (List.of_mem_zip hpair).2, rfl⟩

theorem kind_of_mem_dependencyEdges {w : Workflow} {e : Edge}
    (h : e ∈ dependencyEdges w) : e.kind = .dependency := by
  obtain ⟨s, -, n, -, rfl⟩ := exists_of_mem_dependencyEdges h
  rfl

theorem mem_edges_iff {w : Workflow} {specId : String} {e : Edge} :
    e ∈ (ofWorkflow w specId).edges ↔
      e ∈ sequenceEdges w.steps ∨ e ∈ conditionEdges w.steps ∨
      e ∈ dependencyEdges w := by
  simp [ofWorkflow]

theorem filter_kind {edges : List Edge} {kind : EdgeKind}
    (h : ∀ e ∈ edges, e.kind = kind) (other : EdgeKind) :
    edges.filter (fun e => e.kind == other) = if kind = other then edges
      else [] := by
  split
  · next heq =>
      exact List.filter_eq_self.mpr fun e he =>
        beq_iff_eq.mpr ((h e he).trans heq)
  · next hne =>
      exact List.filter_eq_nil_iff.mpr fun e he => by
        rw [h e he, beq_iff_eq]; exact hne

section Parts

variable {w : Workflow} {specId : String}

theorem edgesOf_eq (kind : EdgeKind) :
    (ofWorkflow w specId).edgesOf kind =
      ((if .sequence = kind then sequenceEdges w.steps else []) ++
        if .condition = kind then conditionEdges w.steps else []) ++
          if .dependency = kind then dependencyEdges w else [] := by
  rw [edgesOf, ofWorkflow, List.filter_append, List.filter_append,
    filter_kind (fun _ => kind_of_mem_sequenceEdges),
    filter_kind (fun _ => kind_of_mem_conditionEdges),
    filter_kind (fun _ => kind_of_mem_dependencyEdges)]

theorem edgesOf_sequence :
    (ofWorkflow w specId).edgesOf .sequence = sequenceEdges w.steps := by
  simp [edgesOf_eq]

theorem edgesOf_condition :
    (ofWorkflow w specId).edgesOf .condition = conditionEdges w.steps := by
  simp [edgesOf_eq]

theorem edgesOf_dependency :
    (ofWorkflow w specId).edgesOf .dependency = dependencyEdges w := by
  simp [edgesOf_eq]

end Parts

theorem edgeCount_eq_length (g : Graph) (kind : EdgeKind) :
    g.edgeCount kind = (g.edgesOf kind).length :=
  List.countP_eq_length_filter

/-! ## The ends of the edges -/

theorem map_ends_chainEdges (ids : List String) :
    (chainEdges ids).map Edge.ends = ids.zip ids.tail := by
  induction ids with
  | nil => rfl
  | cons source rest ih =>
      cases rest with
      | nil => rfl
      | cons target rest =>
          rw [chainEdges, List.map_cons, ih]
          rfl

theorem map_ends_sequenceEdges {steps : List Step} (h : steps ≠ []) :
    (sequenceEdges steps).map Edge.ends =
      (startId :: (steps.map Step.id ++ [endId])).zip
        (steps.map Step.id ++ [endId]) := by
  rw [sequenceEdges, if_neg (by simpa using h), map_ends_chainEdges,
    List.tail_cons]

theorem length_sequenceEdges (steps : List Step) :
    (sequenceEdges steps).length = if steps.length = 0 then 0
      else steps.length + 1 := by
  by_cases h : steps = []
  · subst h
    rfl
  · have hlength := congrArg List.length (map_ends_sequenceEdges h)
    rw [List.length_map] at hlength
    simpa [h] using hlength

/-- The targets that a step at a position names other than the step behind
it. -/
def branchTargets (steps : List Step) (position : Nat) (s : Step) :
    List String :=
  s.targets.filter fun target =>
    some target != (steps[position + 1]?).map Step.id

theorem branchTargets_cons_zero (s : Step) (rest : List Step) :
    branchTargets (s :: rest) 0 s =
      s.targets.filter fun target => some target != rest.head?.map Step.id := by
  rw [branchTargets, List.getElem?_cons_succ, ← List.head?_eq_getElem?]

theorem branchTargets_cons_succ (s : Step) (rest : List Step) (position : Nat) :
    branchTargets (s :: rest) (position + 1) = branchTargets rest position := by
  funext other
  rw [branchTargets, List.getElem?_cons_succ, branchTargets]

theorem conditionEdges_eq (steps : List Step) :
    conditionEdges steps = (steps.mapIdx fun position s =>
      (branchTargets steps position s).map (conditionEdge s)).flatten := by
  induction steps with
  | nil => rfl
  | cons s rest ih =>
      rw [conditionEdges, ih, List.mapIdx_cons, List.flatten_cons,
        branchTargets_cons_zero]
      simp only [branchTargets_cons_succ]

theorem map_ends_conditionEdges (steps : List Step) :
    (conditionEdges steps).map Edge.ends = (steps.mapIdx fun position s =>
      (branchTargets steps position s).map fun target =>
        (s.id, target)).flatten := by
  rw [conditionEdges_eq, List.map_flatten]
  simp only [List.mapIdx_eq_zipIdx_map, List.map_map, Function.comp_def]
  rfl

theorem length_conditionEdges (steps : List Step) :
    (conditionEdges steps).length =
      (steps.mapIdx fun position s =>
        (branchTargets steps position s).length).sum := by
  rw [conditionEdges_eq, List.length_flatten]
  simp only [List.mapIdx_eq_zipIdx_map, List.map_map, Function.comp_def,
    List.length_map]

def uses (w : Workflow) :
    List (Fin w.dependencies.length × Fin w.steps.length) :=
  (List.finRange _ ×ˢ List.finRange _).filter fun p =>
    w.steps[p.2].references w.dependencies[p.1]

theorem nodup_uses (w : Workflow) : (uses w).Nodup :=
  ((List.nodup_finRange _).product (List.nodup_finRange _)).filter _

theorem mem_uses {w : Workflow}
    {p : Fin w.dependencies.length × Fin w.steps.length} :
    p ∈ uses w ↔ w.steps[p.2].references w.dependencies[p.1] = true := by
  rcases p with ⟨j, i⟩
  simp [uses]

-- the builder goes through the dependencies and, for each of them, through the
-- steps
theorem uses_eq_flatMap (w : Workflow) :
    uses w = (List.finRange w.dependencies.length).flatMap fun j =>
      ((List.finRange w.steps.length).filter fun i =>
        w.steps[i].references w.dependencies[j]).map (Prod.mk j) := by
  rw [uses]
  change ((List.finRange _).flatMap fun j =>
    (List.finRange _).map (Prod.mk j)).filter _ = _
  rw [List.filter_flatMap]
  simp only [List.filter_map, Function.comp_def]

def dependencyNode (w : Workflow) (j : Fin w.dependencies.length) : Node :=
  (dependencyNodes w).get (j.cast (length_dependencyNodes w).symm)

theorem zip_dependencyNodes (w : Workflow) :
    w.dependencies.zip (dependencyNodes w) =
      (List.finRange w.dependencies.length).map fun j =>
      (w.dependencies[j], dependencyNode w j) := by
  apply List.ext_getElem
  · simp [length_dependencyNodes]
  · intro j _ _
    simp [dependencyNode]

theorem filter_references (steps : List Step) (d : Dependency) :
    steps.filter (fun s => s.references d) =
      ((List.finRange steps.length).filter fun i => steps[i].references d).map
        fun i => steps[i] := by
  have hsteps : (List.finRange steps.length).map (fun i => steps[i]) = steps :=
    List.ext_getElem (by simp) (by simp)
  conv_lhs => rw [← hsteps]
  rw [List.filter_map]
  rfl

theorem dependencyEdges_eq (w : Workflow) :
    dependencyEdges w = (uses w).map fun p =>
      dependencyEdge w.steps[p.2] (dependencyNode w p.1) := by
  rw [dependencyEdges, zip_dependencyNodes, uses_eq_flatMap, List.flatMap_map,
    List.map_flatMap]
  simp only [filter_references, List.map_map]
  rfl

theorem ids_at_dependency (w : Workflow) (specId : String)
    (j : Fin w.dependencies.length) :
    (ofWorkflow w specId).ids[w.steps.length + 2 + j]? = some
      (dependencyNode w j).id := by
  have hlength : ((chainNodes w.steps).map Node.id).length =
      w.steps.length + 2 := by
    rw [List.length_map, length_chainNodes]
  rw [ids, ofWorkflow, List.map_append, ← hlength,
    List.getElem?_append_right (by omega)]
  simp [dependencyNode, length_dependencyNodes]

/-! ## The whole graph -/

/-- The graph has the nodes and edges that the workflow asks for, and no
others. -/
structure Shape (w : Workflow) (g : Graph) : Prop where
  length_nodes : g.nodes.length = w.steps.length + 2 + w.dependencies.length
  chain : (g.nodes.take (w.steps.length + 2)).map (fun n => (n.id, n.kind)) =
    (startId, .start) ::
      ((w.steps.map fun s => (s.id, s.nodeKind)) ++ [(endId, .finish)])
  dependencies :
    (g.nodes.drop (w.steps.length + 2)).map (fun n => (n.kind, n.name)) =
    w.dependencies.map fun d => (.ofDependency d.kind, d.name)
  start_count : g.nodeCount .start = 1
  finish_count : g.nodeCount .finish = 1
  condition_count : g.nodeCount .condition = w.steps.countP Step.isCondition
  edges_eq : g.edges = g.edgesOf .sequence ++ g.edgesOf .condition ++
    g.edgesOf .dependency
  sequence_count : g.edgeCount .sequence =
    if w.steps.length = 0 then 0 else w.steps.length + 1
  sequence_ends : w.steps ≠ [] → (g.edgesOf .sequence).map Edge.ends =
    (startId :: (w.steps.map Step.id ++ [endId])).zip
      (w.steps.map Step.id ++ [endId])
  branch_count : g.edgeCount .condition = (w.steps.mapIdx fun position s =>
    s.targets.countP fun target =>
      some target != (w.steps[position + 1]?).map Step.id).sum
  branch_ends : (g.edgesOf .condition).map Edge.ends =
    (w.steps.mapIdx fun position s =>
    (branchTargets w.steps position s).map fun target => (s.id, target)).flatten
  uses_nodup : (uses w).Nodup
  mem_uses_iff : ∀ j i, (j, i) ∈ uses w ↔
    w.steps[i].references w.dependencies[j] = true
  use_ends : List.Forall₂
    (fun (p : Fin w.dependencies.length × Fin w.steps.length) e =>
      e.source = w.steps[p.2].id ∧
      g.ids[w.steps.length + 2 + p.1]? = some e.target)
    (uses w) (g.edgesOf .dependency)

theorem shape_ofWorkflow (w : Workflow) (specId : String) :
    Shape w (ofWorkflow w specId) where
  length_nodes := by
    rw [ofWorkflow, List.length_append, length_chainNodes,
      length_dependencyNodes]
  chain := by
    rw [ofWorkflow, List.take_left' (length_chainNodes _)]
    exact map_chainNodes _ _ (fun _ _ => rfl) w.steps
  dependencies := by
    rw [ofWorkflow, List.drop_left' (length_chainNodes _)]
    exact map_dependencyNodes _ _ (fun _ _ _ => rfl) w
  start_count := nodeCount_start
  finish_count := nodeCount_finish
  condition_count := nodeCount_condition
  edges_eq := by
    rw [edgesOf_sequence, edgesOf_condition, edgesOf_dependency]
    rfl
  sequence_count := by
    rw [edgeCount_eq_length, edgesOf_sequence, length_sequenceEdges]
  sequence_ends := by
    rw [edgesOf_sequence]
    exact map_ends_sequenceEdges
  branch_count := by
    rw [edgeCount_eq_length, edgesOf_condition, length_conditionEdges]
    simp only [branchTargets, List.countP_eq_length_filter]
  branch_ends := by
    rw [edgesOf_condition, map_ends_conditionEdges]
  uses_nodup := nodup_uses w
  mem_uses_iff := fun _ _ => mem_uses
  use_ends := by
    rw [edgesOf_dependency, dependencyEdges_eq]
    exact List.forall₂_map_right_iff.mpr (List.forall₂_same.mpr fun p _ =>
      ⟨rfl, ids_at_dependency w specId p.1⟩)

end Graph

end Workflows
