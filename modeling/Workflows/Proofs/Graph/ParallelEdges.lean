import Workflows.Proofs.Graph.ChainCycles

/-!
# Edges side by side

The sequence leads from each step to what comes behind it, the next step or the
end.  A target of the step gets a condition edge unless it is the next step.
Behind the last step there is none, so where that one names the end, its
condition edge runs beside the edge of the sequence.
-/

namespace Workflows.Graph

def Joins (g : Graph) (kind : EdgeKind) (source target : String) : Prop :=
  ∃ e ∈ g.edges, e.kind = kind ∧ e.source = source ∧ e.target = target

/-! ## Joined ends -/

section Joined

variable {w : Workflow} {specId source target : String}

theorem joins_sequence_iff :
    Joins (ofWorkflow w specId) .sequence source target ↔
      target ∈ targetsFrom (sequenceEdges w.steps) source := by
  rw [mem_targetsFrom]
  constructor
  · rintro ⟨e, he, hkind, hends⟩
    rcases mem_edges_iff.mp he with he | he | he
    · exact ⟨e, he, hends⟩
    · simp [kind_of_mem_conditionEdges he] at hkind
    · simp [kind_of_mem_dependencyEdges he] at hkind
  · rintro ⟨e, he, hends⟩
    exact ⟨e, mem_edges_iff.mpr (.inl he), kind_of_mem_sequenceEdges he, hends⟩

theorem joins_condition_iff :
    Joins (ofWorkflow w specId) .condition source target ↔
      target ∈ targetsFrom (conditionEdges w.steps) source := by
  rw [mem_targetsFrom]
  constructor
  · rintro ⟨e, he, hkind, hends⟩
    rcases mem_edges_iff.mp he with he | he | he
    · simp [kind_of_mem_sequenceEdges he] at hkind
    · exact ⟨e, he, hends⟩
    · simp [kind_of_mem_dependencyEdges he] at hkind
  · rintro ⟨e, he, hends⟩
    exact ⟨e, mem_edges_iff.mpr (.inr (.inl he)), kind_of_mem_conditionEdges he,
      hends⟩

end Joined

/-! ## The edges of a step -/

section Step

variable {w : Workflow} {specId target : String} {before after : List Step}
  {s : Step}

theorem joins_sequence_step_iff (h : w.IsNumbered)
    (hsteps : w.steps = before ++ s :: after) :
    Joins (ofWorkflow w specId) .sequence s.id target ↔
      (after.map Step.id ++ [endId]).head? = some target := by
  rw [joins_sequence_iff, targetsFrom_sequenceEdges_step h hsteps,
    Option.mem_toList]

theorem joins_condition_step_iff (h : w.IsNumbered)
    (hsteps : w.steps = before ++ s :: after) :
    Joins (ofWorkflow w specId) .condition s.id target ↔
      target ∈ s.targets ∧ after.head?.map Step.id ≠ some target := by
  rw [joins_condition_iff, targetsFrom_conditionEdges_step h hsteps,
    List.mem_filter, bne_iff_ne, ne_comm]

theorem joins_both_step_iff (h : w.IsNumbered)
    (hsteps : w.steps = before ++ s :: after) :
    Joins (ofWorkflow w specId) .condition s.id target ∧
        Joins (ofWorkflow w specId) .sequence s.id target ↔
      after = [] ∧ target = endId ∧ endId ∈ s.targets := by
  rw [joins_condition_step_iff h hsteps, joins_sequence_step_iff h hsteps]
  cases after with
  | nil =>
      constructor
      · rintro ⟨⟨hmem, -⟩, hend⟩
        obtain rfl : endId = target := by simpa using hend
        exact ⟨rfl, rfl, hmem⟩
      · rintro ⟨-, rfl, hmem⟩
        simp [hmem]
  | cons next rest => simp

end Step

theorem mem_steps_of_joins_condition {w : Workflow}
    {specId source target : String}
    (h : Joins (ofWorkflow w specId) .condition source target) :
    ∃ s ∈ w.steps, s.id = source := by
  obtain ⟨e, he, rfl, -⟩ := mem_targetsFrom.mp (joins_condition_iff.mp h)
  exact List.mem_map.mp (source_mem_of_mem_conditionEdges he)

theorem joins_both_iff_of_isNumbered {w : Workflow} (h : w.IsNumbered)
    (specId source target : String) :
    Joins (ofWorkflow w specId) .condition source target ∧
        Joins (ofWorkflow w specId) .sequence source target ↔
      target = endId ∧
        ∃ s, w.steps.getLast? = some s ∧ s.id = source ∧ endId ∈ s.targets := by
  constructor
  · rintro hboth
    obtain ⟨s, hs, rfl⟩ := mem_steps_of_joins_condition hboth.1
    obtain ⟨before, after, hsteps⟩ := List.append_of_mem hs
    obtain ⟨rfl, htarget, hend⟩ := (joins_both_step_iff h hsteps).mp hboth
    exact ⟨htarget, s, by simp [hsteps], rfl, hend⟩
  · rintro ⟨rfl, s, hlast, rfl, hend⟩
    obtain ⟨before, hsteps⟩ := List.getLast?_eq_some_iff.mp hlast
    exact (joins_both_step_iff h hsteps).mpr ⟨rfl, rfl, hend⟩

/-! ## Documents that are read -/

/-- In the graph of a document that is read, a condition edge runs beside a
sequence edge exactly where the last step names the end as a target. -/
theorem joins_both_iff {text : String} {format : Option DocumentFormat}
    {w : Workflow} (h : Document.parse text format = .ok w)
    (specId source target : String) :
    Joins (ofWorkflow w specId) .condition source target ∧
        Joins (ofWorkflow w specId) .sequence source target ↔
      target = endId ∧
        ∃ s, w.steps.getLast? = some s ∧ s.id = source ∧ endId ∈ s.targets :=
  joins_both_iff_of_isNumbered (Document.isNumbered_of_parse h) specId
    source target

/-- Of the targets that come next, the step is left out and the end is not. -/
theorem joins_both_iff_twoSteps :
    ∃ w, Document.parse "steps: [{next: step-2}, {next: [step-1, end]}]\n"
      none = .ok w ∧
      ¬ (Joins (ofWorkflow w "spec") .condition "step-1" "step-2" ∧
        Joins (ofWorkflow w "spec") .sequence "step-1" "step-2") ∧
      Joins (ofWorkflow w "spec") .condition "step-2" "end" ∧
      Joins (ofWorkflow w "spec") .sequence "step-2" "end" := by
  have hread :
      (Document.parse "steps: [{next: step-2}, {next: [step-1, end]}]\n"
        none).map (fun w => w.steps.map fun s => (s.id, s.targets)) =
        .ok [("step-1", ["step-2"]), ("step-2", ["step-1", "end"])] := by
    cbv
  obtain ⟨w, hparse, hw⟩ := Document.exists_of_map_parse hread
  have hlast : ∃ s, w.steps.getLast? = some s ∧ s.id = "step-2" ∧
      endId ∈ s.targets := by
    have hlast := congrArg List.getLast? hw
    rw [List.getLast?_map] at hlast
    obtain ⟨s, hs, heq⟩ := Option.map_eq_some_iff.mp hlast
    obtain ⟨hid, htargets⟩ := Prod.mk.inj heq
    exact ⟨s, hs, hid, by simp [htargets, endId]⟩
  refine ⟨w, hparse, fun hboth => ?_, ?_⟩
  · obtain ⟨hend, -⟩ :=
      (joins_both_iff hparse "spec" "step-1" "step-2").mp hboth
    exact absurd hend (by decide)
  · exact (joins_both_iff hparse "spec" "step-2" "end").mpr ⟨rfl, hlast⟩

theorem joins_both_at_end :
    ¬ ∀ text w specId source target, Document.parse text none = .ok w →
      Joins (ofWorkflow w specId) .condition source target →
        ¬ Joins (ofWorkflow w specId) .sequence source target := by
  intro h
  have hread : (Document.parse "steps: [{next: end}]\n" none).map
      (fun w => w.steps.map fun s => (s.id, s.targets)) =
      .ok [("step-1", ["end"])] := by
    cbv
  obtain ⟨w, hparse, hw⟩ := Document.exists_of_map_parse hread
  obtain ⟨s, hs, heq⟩ := List.map_eq_singleton_iff.mp hw
  obtain ⟨hid, htargets⟩ := Prod.mk.inj heq
  obtain ⟨hcondition, hsequence⟩ := (joins_both_iff_of_isNumbered
    (Document.isNumbered_of_parse hparse) "spec" "step-1" "end").mpr
      ⟨rfl, s, by simp [hs], hid, by simp [htargets, endId]⟩
  exact h _ w "spec" "step-1" "end" hparse hcondition hsequence

end Workflows.Graph
