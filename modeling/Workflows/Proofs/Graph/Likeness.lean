import Mathlib.Data.List.Forall2
import Workflows.Graph.Build

/-!
# What a graph shows of a workflow

A graph does not show all of a step.  Of its conditions only a text counts, and
of its metadata only three numbers.  Workflows whose steps differ in nothing
else have the same graph.
-/

namespace Workflows

open Workflows.Graph

def Graph.countNames : List String := ["complexity", "executionTime", "timeout"]

/-- Two steps of which a graph shows the same. -/
structure Step.Alike (s s' : Step) : Prop where
  id_eq : s.id = s'.id
  name_eq : s.name = s'.name
  description_eq : s.description = s'.description
  kind_eq : s.kind = s'.kind
  agent_eq : s.agent = s'.agent
  workflow_eq : s.workflow = s'.workflow
  resources_eq : s.resources = s'.resources
  next_eq : s.next = s'.next
  condition_eq : s.conditions.bind Json.asString? =
    s'.conditions.bind Json.asString?
  count_eq : ∀ name ∈ countNames, countField? s.metadata name =
    countField? s'.metadata name

/-- Two workflows of which a graph shows the same. -/
structure Workflow.Alike (w w' : Workflow) : Prop where
  name_eq : w.name = w'.name
  steps : List.Forall₂ Step.Alike w.steps w'.steps
  dependencies_eq : w.dependencies = w'.dependencies

namespace Step.Alike

variable {s s' : Step}

theorem refl (s : Step) : s.Alike s :=
  ⟨rfl, rfl, rfl, rfl, rfl, rfl, rfl, rfl, rfl, fun _ _ => rfl⟩

theorem targets_eq (h : s.Alike s') : s.targets = s'.targets := by
  rw [Step.targets, Step.targets, h.next_eq]

theorem isBranching_eq (h : s.Alike s') : s.isBranching = s'.isBranching := by
  rw [Step.isBranching, Step.isBranching, h.next_eq]

theorem references_eq (h : s.Alike s') (d : Dependency) :
    s.references d = s'.references d := by
  rw [Step.references, Step.references, h.agent_eq, h.workflow_eq,
    h.resources_eq]

theorem nodeOfStep_eq (h : s.Alike s') (position : Nat) :
    nodeOfStep position s = nodeOfStep position s' := by
  have hcondition : s.isCondition = s'.isCondition := by
    rw [Step.isCondition, Step.isCondition, h.kind_eq]
  simp [nodeOfStep, h.id_eq, hcondition, h.name_eq, h.description_eq, h.kind_eq,
    h.resources_eq, h.targets_eq,
    h.count_eq "complexity" (by simp [countNames]),
    h.count_eq "executionTime" (by simp [countNames]),
    h.count_eq "timeout" (by simp [countNames])]

theorem conditionEdge_eq (h : s.Alike s') (target : String) :
    conditionEdge s target = conditionEdge s' target := by
  rw [conditionEdge, conditionEdge, h.id_eq, h.condition_eq, h.isBranching_eq]

theorem dependencyEdge_eq (h : s.Alike s') (n : Node) :
    dependencyEdge s n = dependencyEdge s' n := by
  rw [dependencyEdge, dependencyEdge, h.id_eq]

end Step.Alike

namespace Graph

section

variable {steps steps' : List Step}

theorem map_id_of_alike (h : List.Forall₂ Step.Alike steps steps') :
    steps.map Step.id = steps'.map Step.id := by
  induction h with
  | nil => rfl
  | cons hstep _ ih => rw [List.map_cons, List.map_cons, hstep.id_eq, ih]

theorem chainNodes_of_alike (h : List.Forall₂ Step.Alike steps steps') :
    chainNodes steps = chainNodes steps' := by
  have hnodes : steps.mapIdx nodeOfStep = steps'.mapIdx nodeOfStep := by
    refine List.ext_getElem (by simp [h.length_eq]) fun position hlt hlt' => ?_
    rw [List.getElem_mapIdx, List.getElem_mapIdx]
    exact (h.get (by simpa using hlt) (by simpa using hlt')).nodeOfStep_eq
      position
  rw [chainNodes, chainNodes, hnodes, h.length_eq]

theorem sequenceEdges_of_alike (h : List.Forall₂ Step.Alike steps steps') :
    sequenceEdges steps = sequenceEdges steps' := by
  have hempty : steps.isEmpty = steps'.isEmpty := by cases h <;> rfl
  rw [sequenceEdges, sequenceEdges, hempty, map_id_of_alike h]

theorem conditionEdges_of_alike (h : List.Forall₂ Step.Alike steps steps') :
    conditionEdges steps = conditionEdges steps' := by
  induction h with
  | nil => rfl
  | @cons s s' rest rest' hstep hrest ih =>
      have hnext : rest.head?.map Step.id = rest'.head?.map Step.id := by
        rw [← List.head?_map, ← List.head?_map, map_id_of_alike hrest]
      rw [conditionEdges, conditionEdges, ih, hnext, hstep.targets_eq,
        funext hstep.conditionEdge_eq]

theorem map_dependencyEdge_of_alike (h : List.Forall₂ Step.Alike steps steps')
    (d : Dependency) (n : Node) :
    ((steps.filter fun s => s.references d).map fun s => dependencyEdge s n) =
      (steps'.filter fun s => s.references d).map fun s =>
        dependencyEdge s n := by
  induction h with
  | nil => rfl
  | cons hstep _ ih =>
      rw [List.filter_cons, List.filter_cons, hstep.references_eq]
      split
      · rw [List.map_cons, List.map_cons, hstep.dependencyEdge_eq, ih]
      · exact ih

end

/-- What a graph does not show makes no difference to it. -/
theorem ofWorkflow_of_alike {w w' : Workflow}
    (h : w.Alike w') (specId : String) :
    ofWorkflow w specId = ofWorkflow w' specId := by
  obtain ⟨hname, hsteps, hdependencies⟩ := h
  have hnodes : dependencyNodes w = dependencyNodes w' := by
    rw [dependencyNodes, dependencyNodes, chainNodes_of_alike hsteps,
      hdependencies]
  have hedges : dependencyEdges w = dependencyEdges w' := by
    rw [dependencyEdges, dependencyEdges, hnodes, hdependencies]
    congr 1
    funext entry
    exact map_dependencyEdge_of_alike hsteps entry.1 entry.2
  simp only [ofWorkflow, hname, hnodes, hedges, chainNodes_of_alike hsteps,
    sequenceEdges_of_alike hsteps, conditionEdges_of_alike hsteps,
    hsteps.length_eq, hdependencies]

end Graph

end Workflows
