import Mathlib.Data.List.Chain
import Mathlib.Data.List.Infix
import Mathlib.Data.List.Nodup
import Workflows.Graph.Build
import Workflows.Proofs.Cycle.Spine
import Workflows.Proofs.Graph.Shape

/-!
# The cycles of a workflow

The sequence edges come first, so the start and the steps are a spine of the
graph of a workflow, and what else an edge leads to has no edges of its own.
Cycles are therefore closed by the steps alone, at the targets that they name
among the start, the steps before them and themselves.
-/

namespace Workflows.Graph

/-! ## Targets of edges -/

def targetsFrom (edges : List Edge) (id : String) : List String :=
  (edges.filter fun e => e.source == id).map Edge.target

@[simp] theorem targetsFrom_append (edges edges' : List Edge) (id : String) :
    targetsFrom (edges ++ edges') id = targetsFrom edges id ++
      targetsFrom edges' id := by
  simp [targetsFrom]

theorem targetsFrom_cons_of_ne {e : Edge} {id : String} (h : e.source ≠ id)
    (edges : List Edge) :
    targetsFrom (e :: edges) id = targetsFrom edges id := by
  simp [targetsFrom, h]

theorem targetsFrom_eq_nil {edges : List Edge} {id : String}
    (h : ∀ e ∈ edges, e.source ≠ id) : targetsFrom edges id = [] := by
  simpa [targetsFrom] using h

theorem mem_targetsFrom {edges : List Edge} {id target : String} :
    target ∈ targetsFrom edges id ↔
      ∃ e ∈ edges, e.source = id ∧ e.target = target := by
  simp [targetsFrom, and_assoc]

theorem successors_eq_targetsFrom {g : Graph} {id : String} (h : id ∈ g.ids) :
    (Adjacency.ofGraph g).successors id =
      distinct ((targetsFrom g.edges id).filter g.hasNode) := by
  have hknown : g.hasNode id = true := hasNode_eq_true_iff.mpr h
  rw [Adjacency.successors_ofGraph, edgesFrom, targetsFrom, List.filter_map,
    List.filter_filter]
  congr 2
  refine List.filter_congr fun e _ => ?_
  by_cases heq : e.source = id
  · simp [heq, hknown]
  · simp [beq_false_of_ne heq]

theorem successors_eq_nil {g : Graph} {id : String}
    (h : ∀ e ∈ g.edges, e.source ≠ id) :
    (Adjacency.ofGraph g).successors id = [] := by
  have hnone : g.edgesFrom id = [] := by
    refine List.filter_eq_nil_iff.mpr fun e he => ?_
    simp [h e he]
  rw [Adjacency.successors_ofGraph, hnone]
  rfl

/-! ## Sequence edges -/

theorem ends_of_mem_chainEdges {ids : List String} {e : Edge}
    (h : e ∈ chainEdges ids) :
    e.source ∈ ids.dropLast ∧ e.target ∈ ids.tail := by
  induction ids with
  | nil => cases h
  | cons source rest ih =>
      cases rest with
      | nil => cases h
      | cons target rest =>
          rw [chainEdges] at h
          rcases List.mem_cons.mp h with rfl | h
          · exact ⟨List.mem_cons_self, List.mem_cons_self⟩
          · exact ⟨List.mem_cons_of_mem _ (ih h).1,
              List.mem_cons_of_mem _ (ih h).2⟩

theorem targetsFrom_chainEdges {before after : List String}
    {source target : String} (h : (before ++ source :: target :: after).Nodup) :
    targetsFrom (chainEdges (before ++ source :: target :: after)) source =
      [target] := by
  induction before with
  | nil =>
      have hrest : ∀ e ∈ chainEdges (target :: after), e.source ≠ source := by
        intro e he heq
        have hmem := List.mem_of_mem_dropLast (ends_of_mem_chainEdges he).1
        rw [heq] at hmem
        exact (List.nodup_cons.mp h).1 hmem
      rw [List.nil_append, chainEdges, ← List.singleton_append,
        targetsFrom_append, targetsFrom_eq_nil hrest]
      simp [targetsFrom, chainEdge, Edge.bare]
  | cons first before ih =>
      obtain ⟨hfirst, hnodup⟩ := List.nodup_cons.mp h
      have hne : first ≠ source := by
        rintro rfl
        exact hfirst (by simp)
      -- the edge from the first id needs a second one to be seen
      cases before with
      | nil => exact (targetsFrom_cons_of_ne hne _).trans (ih hnodup)
      | cons second before =>
          exact (targetsFrom_cons_of_ne hne _).trans (ih hnodup)

/-! ## Condition edges -/

theorem source_mem_of_mem_conditionEdges {steps : List Step} {e : Edge}
    (h : e ∈ conditionEdges steps) : e.source ∈ steps.map Step.id := by
  obtain ⟨s, hs, target, -, rfl⟩ := exists_of_mem_conditionEdges h
  exact List.mem_map_of_mem hs

theorem targetsFrom_conditionEdges {before after : List Step} {s : Step}
    (h : ((before ++ s :: after).map Step.id).Nodup) :
    targetsFrom (conditionEdges (before ++ s :: after)) s.id =
      s.targets.filter fun target =>
        some target != after.head?.map Step.id := by
  induction before with
  | nil =>
      have hrest : ∀ e ∈ conditionEdges after, e.source ≠ s.id := by
        intro e he heq
        have hmem := source_mem_of_mem_conditionEdges he
        rw [heq] at hmem
        exact (List.nodup_cons.mp h).1 hmem
      rw [List.nil_append, conditionEdges, targetsFrom_append,
        targetsFrom_eq_nil hrest]
      simp [targetsFrom, conditionEdge, Edge.bare, List.filter_map,
        Function.comp_def]
  | cons first before ih =>
      obtain ⟨hfirst, hnodup⟩ := List.nodup_cons.mp h
      have hhead : ∀ target ∈ (first.targets.filter fun target =>
          some target != (before ++ s :: after).head?.map Step.id).map
            (conditionEdge first), target.source ≠ s.id := by
        intro e he heq
        obtain ⟨target, -, rfl⟩ := List.mem_map.mp he
        exact hfirst (by simp [← heq, conditionEdge, Edge.bare])
      rw [List.cons_append, conditionEdges, targetsFrom_append,
        targetsFrom_eq_nil hhead]
      exact ih hnodup

/-! ## Dependency edges -/

theorem exists_id_of_mem_dependencyNodesFrom {taken : List String}
    {position : Nat} {ds : List Dependency} {node : Node}
    (h : node ∈ dependencyNodesFrom taken position ds) :
    ∃ kind name, node.id = plainId kind name := by
  induction ds generalizing taken position with
  | nil => cases h
  | cons d rest ih =>
      rw [dependencyNodesFrom] at h
      rcases List.mem_cons.mp h with rfl | h
      · by_cases htaken : plainId d.kind d.name ∈ taken
        · exact ⟨_, _, dependencyId_of_mem htaken position⟩
        · exact ⟨_, _, dependencyId_of_notMem htaken position⟩
      · exact ih h

theorem ends_of_mem_dependencyEdges {w : Workflow} {e : Edge}
    (h : e ∈ dependencyEdges w) :
    e.source ∈ w.steps.map Step.id ∧
      ∃ kind name, e.target = plainId kind name := by
  obtain ⟨s, hs, n, hn, rfl⟩ := exists_of_mem_dependencyEdges h
  exact ⟨List.mem_map_of_mem hs, exists_id_of_mem_dependencyNodesFrom hn⟩

/-! ## The spine of a workflow -/

def spine (w : Workflow) : List String := startId :: w.steps.map Step.id

theorem targetsFrom_edges (w : Workflow) (specId id : String) :
    targetsFrom (ofWorkflow w specId).edges id =
      targetsFrom (sequenceEdges w.steps) id ++
      (targetsFrom (conditionEdges w.steps) id ++
        targetsFrom (dependencyEdges w) id) := by
  rw [← targetsFrom_append, ← targetsFrom_append, ← List.append_assoc]
  rfl

theorem source_mem_spine {w : Workflow} {specId : String} {e : Edge}
    (h : e ∈ (ofWorkflow w specId).edges) : e.source ∈ spine w := by
  rw [ofWorkflow, List.mem_append, List.mem_append] at h
  rcases h with (h | h) | h
  · rw [sequenceEdges] at h
    split at h
    · cases h
    · have hmem := (ends_of_mem_chainEdges h).1
      rwa [← List.cons_append, List.dropLast_concat] at hmem
  · exact List.mem_cons_of_mem _ (source_mem_of_mem_conditionEdges h)
  · exact List.mem_cons_of_mem _ (ends_of_mem_dependencyEdges h).1

theorem successors_eq_nil_of_notMem_spine {w : Workflow} {id : String}
    (h : id ∉ spine w) (specId : String) :
    (Adjacency.ofGraph (ofWorkflow w specId)).successors id = [] :=
  successors_eq_nil fun _ he heq => h (heq ▸ source_mem_spine he)

theorem mem_ids_of_mem_spine {w : Workflow} {id : String} (h : id ∈ spine w)
    (specId : String) : id ∈ (ofWorkflow w specId).ids := by
  rw [ids, ofWorkflow, List.map_append, map_id_chainNodes, ← List.cons_append]
  exact List.mem_append_left _ (List.mem_append_left _ h)

section Numbered

variable {w : Workflow}

theorem nodup_chain (h : w.IsNumbered) : (spine w ++ [endId]).Nodup := by
  have hnodup := nodup_chainIds h
  rwa [map_id_chainNodes] at hnodup

theorem mem_spine_or_successors_eq_nil {specId : String} (id : String) :
    id ∈ spine w ∨ (Adjacency.ofGraph (ofWorkflow w specId)).successors id =
      [] :=
  or_iff_not_imp_left.mpr fun hmem =>
    successors_eq_nil_of_notMem_spine hmem specId

theorem targetsFrom_sequenceEdges (h : w.IsNumbered)
    {before after : List String} {node next : String}
    (hchain : spine w ++ [endId] = before ++ node :: next :: after)
    (hsteps : w.steps ≠ []) :
    targetsFrom (sequenceEdges w.steps) node = [next] := by
  have hnodup := nodup_chain h
  rw [hchain] at hnodup
  rw [sequenceEdges, if_neg (by simpa using hsteps), ← List.cons_append]
  change targetsFrom (chainEdges (spine w ++ [endId])) node = [next]
  rw [hchain]
  exact targetsFrom_chainEdges hnodup

theorem isSpine (h : w.IsNumbered) (specId : String) :
    Cycle.IsSpine (Adjacency.ofGraph (ofWorkflow w specId)).successors
      (spine w) where
  nodup := (List.nodup_append.mp (nodup_chain h)).1
  walk := by
    refine List.isChain_iff_forall_rel_of_append_cons_cons.mpr ?_
    intro node next before after hspine
    have hnode : node ∈ spine w := by simp [hspine]
    have hnext : next ∈ spine w := by simp [hspine]
    have hsteps : w.steps ≠ [] := by
      intro hnil
      have hlength := congrArg List.length hspine
      simp [spine, hnil] at hlength
      omega
    have hchain : spine w ++ [endId] = before ++ node :: next ::
        (after ++ [endId]) := by
      simp [hspine]
    have hknown := hasNode_eq_true_iff.mpr (mem_ids_of_mem_spine hnext specId)
    rw [successors_eq_targetsFrom (mem_ids_of_mem_spine hnode specId)]
    rw [targetsFrom_edges, targetsFrom_sequenceEdges h hchain hsteps,
      List.singleton_append, List.filter_cons_of_pos hknown, distinct]
    rfl
  flat := fun _ _ next _ => mem_spine_or_successors_eq_nil next

end Numbered

/-! ## Targets on the way to a step -/

section Step

variable {w : Workflow} {before after : List Step} {s : Step}

def walkTo (before : List Step) (s : Step) : List String :=
  startId :: (before ++ [s]).map Step.id

theorem spine_eq_walkTo (hsteps : w.steps = before ++ s :: after) :
    spine w = walkTo before s ++ after.map Step.id := by
  simp [spine, walkTo, hsteps]

theorem notMem_walkTo (h : w.IsNumbered)
    (hsteps : w.steps = before ++ s :: after) {id : String}
    (hid : id ∈ after.map Step.id ++ [endId]) : id ∉ walkTo before s := by
  have hnodup := nodup_chain h
  rw [spine_eq_walkTo hsteps, List.append_assoc] at hnodup
  exact fun hmem => (List.nodup_append.mp hnodup).2.2 id hmem id hid rfl

theorem targetsFrom_sequenceEdges_step (h : w.IsNumbered)
    (hsteps : w.steps = before ++ s :: after) :
    targetsFrom (sequenceEdges w.steps) s.id =
      (after.map Step.id ++ [endId]).head?.toList := by
  obtain ⟨next, rest, hrest⟩ : ∃ next rest, after.map Step.id ++ [endId] =
      next :: rest := List.exists_cons_of_ne_nil (by simp)
  have hchain : spine w ++ [endId] =
      (startId :: before.map Step.id) ++ s.id :: next :: rest := by
    rw [← hrest, spine_eq_walkTo hsteps]
    simp [walkTo]
  rw [targetsFrom_sequenceEdges h hchain (by simp [hsteps]), hrest]
  rfl

theorem targetsFrom_conditionEdges_step (h : w.IsNumbered)
    (hsteps : w.steps = before ++ s :: after) :
    targetsFrom (conditionEdges w.steps) s.id =
      s.targets.filter fun target =>
        some target != after.head?.map Step.id := by
  have hids : ((before ++ s :: after).map Step.id).Nodup := by
    rw [← hsteps, h]
    exact Document.nodup_stepIds _
  rw [hsteps, targetsFrom_conditionEdges hids]

theorem filter_sequenceEdges (h : w.IsNumbered)
    (hsteps : w.steps = before ++ s :: after) :
    (targetsFrom (sequenceEdges w.steps) s.id).filter
      (· ∈ walkTo before s) = [] := by
  rw [targetsFrom_sequenceEdges_step h hsteps, List.filter_eq_nil_iff]
  intro next hnext
  have hlater := List.mem_of_mem_head? (Option.mem_toList.mp hnext)
  simpa using notMem_walkTo h hsteps hlater

theorem filter_conditionEdges (h : w.IsNumbered)
    (hsteps : w.steps = before ++ s :: after) :
    (targetsFrom (conditionEdges w.steps) s.id).filter (· ∈ walkTo before s) =
      s.targets.filter (· ∈ walkTo before s) := by
  rw [targetsFrom_conditionEdges_step h hsteps, List.filter_filter]
  refine List.filter_congr fun target _ => ?_
  by_cases hmem : target ∈ walkTo before s
  · -- the next step has an edge of the sequence, and is not on the walk
    have hfollowing : some target ≠ after.head?.map Step.id := by
      intro heq
      have hafter : target ∈ after.map Step.id := by
        rw [← List.head?_map] at heq
        exact List.mem_of_mem_head? heq.symm
      exact notMem_walkTo h hsteps (List.mem_append_left _ hafter) hmem
    simp [hmem, hfollowing]
  · simp [hmem]

theorem filter_dependencyEdges (h : w.IsNumbered)
    (hsteps : w.steps = before ++ s :: after) :
    (targetsFrom (dependencyEdges w) s.id).filter
      (· ∈ walkTo before s) = [] := by
  refine List.filter_eq_nil_iff.mpr fun target htarget hmem => ?_
  obtain ⟨e, he, -, rfl⟩ := mem_targetsFrom.mp htarget
  obtain ⟨-, kind, name, hplain⟩ := ends_of_mem_dependencyEdges he
  have hspine : plainId kind name ∈ spine w := by
    rw [← hplain, spine_eq_walkTo hsteps]
    exact List.mem_append_left _ (of_decide_eq_true hmem)
  refine plainId_notMem_chainIds h kind name ?_
  rw [map_id_chainNodes]
  exact List.mem_append_left _ hspine

theorem closings_successors (h : w.IsNumbered)
    (hsteps : w.steps = before ++ s :: after) (specId : String) :
    Cycle.closings (walkTo before s)
        ((Adjacency.ofGraph (ofWorkflow w specId)).successors s.id) =
      Cycle.closings (walkTo before s) (distinct s.targets) := by
  have hmem : s.id ∈ spine w := by simp [spine, hsteps]
  have hknown : ∀ id ∈ walkTo before s,
      (ofWorkflow w specId).hasNode id = true := by
    intro id hid
    have hspine : id ∈ spine w := by
      rw [spine_eq_walkTo hsteps]
      exact List.mem_append_left _ hid
    exact hasNode_eq_true_iff.mpr (mem_ids_of_mem_spine hspine specId)
  have hfilter (targets : List String) :
      (targets.filter (ofWorkflow w specId).hasNode).filter
        (· ∈ walkTo before s) =
        targets.filter (· ∈ walkTo before s) := by
    rw [List.filter_filter]
    refine List.filter_congr fun id _ => ?_
    by_cases hid : id ∈ walkTo before s
    · simp [hid, hknown id hid]
    · simp [hid]
  rw [Cycle.closings, Cycle.closings,
    successors_eq_targetsFrom (mem_ids_of_mem_spine hmem specId),
    filter_distinct, filter_distinct, hfilter]
  rw [targetsFrom_edges, List.filter_append, List.filter_append,
    filter_sequenceEdges h hsteps, filter_conditionEdges h hsteps,
    filter_dependencyEdges h hsteps, List.nil_append, List.append_nil]

end Step

/-! ## The report -/

def chainTo (position : Nat) : List String :=
  startId :: (List.range (position + 1)).map Document.stepId

variable {w : Workflow}

theorem walkTo_eq_chainTo (h : w.IsNumbered) {before after : List Step}
    {s : Step} (hsteps : w.steps = before ++ s :: after) :
    walkTo before s = chainTo before.length := by
  have htake := congrArg (List.take (before.length + 1)) h
  have hlength : before.length + 1 ≤ w.steps.length := by
    simp [hsteps]
  rw [← List.map_take, ← List.map_take, List.take_range,
    Nat.min_eq_left hlength, hsteps, List.append_cons,
    List.take_left' (by simp)] at htake
  rw [walkTo, htake, chainTo]

theorem closings_start (h : w.IsNumbered) (specId : String) :
    Cycle.closings [startId]
      ((Adjacency.ofGraph (ofWorkflow w specId)).successors startId) = [] := by
  have hstart : startId ∉ w.steps.map Step.id ++ [endId] :=
    (List.nodup_cons.mp (nodup_chain h)).1
  have hsteps : startId ∉ w.steps.map Step.id := fun hmem =>
    hstart (List.mem_append_left _ hmem)
  have hcondition : targetsFrom (conditionEdges w.steps) startId = [] :=
    targetsFrom_eq_nil fun _ he heq =>
      hsteps (heq ▸ source_mem_of_mem_conditionEdges he)
  have hdependency : targetsFrom (dependencyEdges w) startId = [] :=
    targetsFrom_eq_nil fun _ he heq =>
      hsteps (heq ▸ (ends_of_mem_dependencyEdges he).1)
  have hsequence : startId ∉ targetsFrom (sequenceEdges w.steps) startId := by
    intro hmem
    obtain ⟨e, he, -, htarget⟩ := mem_targetsFrom.mp hmem
    rw [sequenceEdges] at he
    split at he
    · cases he
    · exact hstart (htarget ▸ (ends_of_mem_chainEdges he).2)
  rw [successors_eq_targetsFrom
    (mem_ids_of_mem_spine List.mem_cons_self specId), targetsFrom_edges,
    hcondition, hdependency, List.append_nil, List.append_nil, Cycle.closings,
    List.map_eq_nil_iff, List.filter_eq_nil_iff]
  intro next hnext hmem
  obtain rfl : next = startId := by simpa using hmem
  exact hsequence (List.mem_of_mem_filter (mem_distinct.mp hnext))

theorem spineCycles_steps (h : w.IsNumbered) (specId : String)
    (before rest : List Step) (hsteps : w.steps = before ++ rest) :
    Cycle.spineCycles (Adjacency.ofGraph (ofWorkflow w specId)).successors
        (startId :: before.map Step.id) (rest.map Step.id) =
      (rest.zipIdx before.length).reverse.flatMap fun (s, position) =>
        Cycle.closings (chainTo position) (distinct s.targets) := by
  induction rest generalizing before with
  | nil => rfl
  | cons s rest ih =>
      have hwalk : (startId :: before.map Step.id) ++ [s.id] =
          walkTo before s := by
        simp [walkTo]
      have hrest := ih (before ++ [s]) (by rw [hsteps, List.append_cons])
      rw [List.length_append, List.length_singleton, List.map_append,
        List.map_singleton, ← List.cons_append] at hrest
      rw [List.map_cons, Cycle.spineCycles, hrest,
        hwalk, closings_successors h hsteps, walkTo_eq_chainTo h hsteps]
      simp

theorem cycles_congr {g g' : Graph} (hids : g.ids = g'.ids)
    (hends : g.edges.map Edge.ends = g'.edges.map Edge.ends) :
    g.cycles = g'.cycles := by
  rw [cycles, cycles, Adjacency.ofGraph_congr hids hends, hids]

theorem metadata_cycles (w : Workflow) (specId : String) :
    (ofWorkflow w specId).metadata.cycles = (ofWorkflow w specId).cycles := by
  -- the cycles are put in last, and no node or edge depends on them
  unfold ofWorkflow
  apply cycles_congr
  · exact congrArg (List.map Node.id) rfl
  · exact congrArg (List.map Edge.ends) rfl

/-- The cycles of a workflow graph, from the last step to the first: each target
of the step that is the start, a step before it or the step itself closes the
chain from there to the step. -/
theorem cycles_ofWorkflow (h : w.IsNumbered) (specId : String) :
    (ofWorkflow w specId).metadata.cycles =
      w.steps.zipIdx.reverse.flatMap fun (s, position) =>
        ((distinct s.targets).filter fun target =>
          target ∈ chainTo position).map fun target =>
          (chainTo position).drop ((chainTo position).idxOf target) ++
            [target] := by
  obtain ⟨others, hothers⟩ : ∃ others, (ofWorkflow w specId).ids =
      startId :: others :=
    ⟨_, rfl⟩
  have hreach (node : String) (hnode : Reachable
      (Adjacency.ofGraph (ofWorkflow w specId)).successors
      (startId :: others) node) :
      node ∈ (ofWorkflow w specId).ids :=
    hnode.mem (fun root hroot => hothers ▸ hroot)
      fun _ _ _ hnext => Adjacency.mem_ids_of_mem_successors hnext
  calc (ofWorkflow w specId).metadata.cycles
      = Cycle.find (Adjacency.ofGraph (ofWorkflow w specId)).successors
          (ofWorkflow w specId).ids (startId :: others) := by
        rw [metadata_cycles, cycles, ← hothers]
    _ = Cycle.spineCycles (Adjacency.ofGraph (ofWorkflow w specId)).successors
          [] (spine w) := Cycle.find_spine (isSpine h specId)
            (fun root _ => mem_spine_or_successors_eq_nil root) hreach
    _ = Cycle.spineCycles (Adjacency.ofGraph (ofWorkflow w specId)).successors
          [startId] (w.steps.map Step.id) := by
        rw [spine, Cycle.spineCycles, List.nil_append, closings_start h,
          List.append_nil]
    _ = _ := spineCycles_steps h specId [] w.steps rfl

def backwardSteps : Workflow where
  name := "backward"
  description := none
  version := none
  author := none
  steps := [
    { Step.ofName "step-1" "a" with next := some (.many ["step-3", "ghost"]) },
    { Step.ofName "step-2" "b" with next := some (.one "start") },
    { Step.ofName "step-3" "c" with
        next := some (.many ["step-3", "step-1", "end", "step-3"]) }]
  dependencies := [.ofName .agent "a"]
  metadata := []

theorem cycles_backwardSteps :
    backwardSteps.IsNumbered ∧
    (ofWorkflow backwardSteps "spec").metadata.cycles =
      [["step-3", "step-3"], ["step-1", "step-2", "step-3", "step-1"],
        ["start", "step-1", "step-2", "start"]] := by
  have hnumbered : backwardSteps.IsNumbered := by
    rw [Workflow.IsNumbered]
    decide +kernel
  exact ⟨hnumbered,
    (cycles_ofWorkflow hnumbered "spec").trans (by decide +kernel)⟩

end Workflows.Graph
