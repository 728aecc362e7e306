import Workflows.Proofs.Cycle.Completeness
import Workflows.Proofs.Graph.ChainCycles
import Workflows.Proofs.Graph.Distances
import Workflows.Proofs.Graph.ExecutionPaths

/-!
# The main path of a workflow

The main path leads from the start through the steps to the end.  The edge to
the next id on it comes before the other edges of an id, so it is the first
execution path.  Where no step names a target off its way, the other edges lead
to dependencies, from which nothing leads on: then it is the only path, no walk
comes back, and the end is as far from the start as it is long.
-/

namespace Workflows

/-- No step names a target other than what comes behind it, the next step or the
end. -/
def IsStraight : List Step → Prop
  | [] => True
  | s :: rest =>
      (∀ target ∈ s.targets,
        (rest.map Step.id ++ [Graph.endId]).head? = some target) ∧
        IsStraight rest

instance decidableIsStraight :
    (steps : List Step) → Decidable (IsStraight steps)
  | [] => .isTrue trivial
  | _ :: rest =>
      have : Decidable (IsStraight rest) := decidableIsStraight rest
      inferInstanceAs (Decidable (_ ∧ _))

theorem IsStraight.targets {before after : List Step} {s : Step}
    (h : IsStraight (before ++ s :: after)) :
    ∀ target ∈ s.targets, (after.map Step.id ++ [Graph.endId]).head? =
      some target := by
  induction before with
  | nil => exact h.1
  | cons first before ih => exact ih h.2

/-! ## Walks along a path -/

theorem ReachedIn.of_isChain {α : Type} {successors : α → List α}
    {path : List α} {first node : α} (hpath : path.IsChain (Follows successors))
    (hfirst : path.head? = some first) {i : Nat}
    (hnode : path[i]? = some node) : ReachedIn successors first i node := by
  induction i generalizing node with
  | zero =>
      rw [← List.head?_eq_getElem?, hfirst] at hnode
      exact Option.some.inj hnode ▸ .root
  | succ i ih =>
      obtain ⟨hi, rfl⟩ := List.getElem?_eq_some_iff.mp hnode
      exact (ih (List.getElem?_eq_getElem _)).next
        (List.isChain_iff_getElem.mp hpath i hi)

section SimplePaths

variable {successors : String → List String} {exit : String}

namespace IsSimplePath

theorem eq_singleton {path : List String}
    (h : IsSimplePath successors exit exit path) :
    path = [exit] := by
  obtain ⟨rest, rfl⟩ := h.cons_of_ne_nil
  cases rest with
  | nil => rfl
  | cons next rest =>
      obtain ⟨-, hnew, hrest⟩ := cons_cons_iff.mp h
      exact absurd (List.mem_of_getLast? hrest.ends) hnew

theorem exists_cons_cons {id : String} {path : List String}
    (h : IsSimplePath successors id exit path) (hne : id ≠ exit) :
    ∃ next rest, path = id :: next :: rest := by
  obtain ⟨rest, rfl⟩ := h.cons_of_ne_nil
  cases rest with
  | nil => exact absurd (singleton_iff.mp h).2 hne
  | cons next rest => exact ⟨next, rest, rfl⟩

theorem successors_ne_nil {id : String} {path : List String}
    (h : IsSimplePath successors id exit path) (hne : id ≠ exit) :
    successors id ≠ [] := by
  obtain ⟨next, rest, rfl⟩ := h.exists_cons_cons hne
  exact List.ne_nil_of_mem (cons_cons_iff.mp h).1

end IsSimplePath

namespace Enumeration

theorem exists_waysOut_eq_cons {path : List String} {entry : String}
    (hpath : IsSimplePath successors entry exit path)
    (hturns : path.IsChain fun id next => (successors id).head? = some next)
    {visited : List String} (hfresh : ∀ id ∈ path, id ∉ visited) {bound : Nat}
    (hbound : path.length ≤ bound) :
    ∃ others, waysOut successors exit bound visited entry = path :: others := by
  induction path generalizing entry visited bound with
  | nil => cases hpath.starts
  | cons id path ih =>
      obtain rfl : id = entry := Option.some.inj hpath.starts
      have hpositive : 0 < bound := Nat.lt_of_lt_of_le (Nat.succ_pos _) hbound
      obtain ⟨bound, rfl⟩ := Nat.exists_eq_add_one.mpr hpositive
      have hid := hfresh id List.mem_cons_self
      cases path with
      | nil =>
          obtain ⟨-, rfl⟩ := IsSimplePath.singleton_iff.mp hpath
          exact ⟨[], waysOut_exit hid⟩
      | cons next path =>
          obtain ⟨hnext, hnew, htail⟩ := IsSimplePath.cons_cons_iff.mp hpath
          obtain ⟨hhead, hturns⟩ := List.isChain_cons_cons.mp hturns
          have hexit : id ≠ exit := by
            rintro rfl
            exact hnew (List.mem_of_getLast? htail.ends)
          have hrest : ∀ other ∈ next :: path, other ∉ id :: visited := by
            intro other hother hmem
            rcases List.mem_cons.mp hmem with rfl | hmem
            · exact hnew hother
            · exact hfresh other (List.mem_cons_of_mem _ hother) hmem
          obtain ⟨others, hothers⟩ :=
            ih htail hturns hrest (Nat.le_of_succ_le_succ hbound)
          obtain ⟨later, hlater⟩ := List.head?_eq_some_iff.mp hhead
          rw [waysOut_of_ne hid hexit, hlater, List.flatMap_cons, hothers]
          exact ⟨_, rfl⟩

theorem eq_of_isSimplePath {path way : List String} {entry : String}
    (hpath : IsSimplePath successors entry exit path)
    (hdead : path.IsChain fun id next => ∀ other ∈ successors id,
      other = next ∨ successors other = [] ∧ other ≠ exit)
    (hway : IsSimplePath successors entry exit way) : way = path := by
  induction path generalizing entry way with
  | nil => cases hpath.starts
  | cons id path ih =>
      obtain rfl : id = entry := Option.some.inj hpath.starts
      by_cases hexit : id = exit
      · subst hexit
        rw [hway.eq_singleton, hpath.eq_singleton]
      · obtain ⟨other, rest, rfl⟩ := hway.exists_cons_cons hexit
        obtain ⟨next, path, hnext⟩ := hpath.exists_cons_cons hexit
        obtain rfl := (List.cons.inj hnext).2
        obtain ⟨-, -, htail⟩ := IsSimplePath.cons_cons_iff.mp hpath
        obtain ⟨hother, -, hrest⟩ := IsSimplePath.cons_cons_iff.mp hway
        obtain ⟨hturn, hdead⟩ := List.isChain_cons_cons.mp hdead
        rcases hturn other hother with rfl | ⟨hnone, hne⟩
        · rw [ih htail hdead hrest]
        · exact absurd hnone (hrest.successors_ne_nil hne)

end Enumeration

end SimplePaths

namespace Graph

/-! ## The way along the steps -/

def mainPath (w : Workflow) : List String := spine w ++ [endId]

section MainPath

variable {w : Workflow} {before after : List String} {node next : String}

theorem mainPath_eq (h : w.IsNumbered) :
    mainPath w =
      startId ::
        ((List.range w.steps.length).map Document.stepId ++ [endId]) := by
  rw [mainPath, spine, h, List.cons_append]

theorem mainPath_eq_ids (w : Workflow) :
    mainPath w = (chainNodes w.steps).map Node.id := by
  rw [map_id_chainNodes, mainPath, spine, List.cons_append]

theorem nodup_mainPath (h : w.IsNumbered) : (mainPath w).Nodup := nodup_chain h

theorem length_mainPath (w : Workflow) :
    (mainPath w).length = w.steps.length + 2 := by
  simp [mainPath, spine]

theorem plainId_notMem_mainPath (h : w.IsNumbered) (kind : DependencyKind)
    (name : String) :
    plainId kind name ∉ mainPath w := by
  rw [mainPath_eq_ids]
  exact plainId_notMem_chainIds h kind name

theorem mem_ids_of_mem_mainPath {id : String} (hid : id ∈ mainPath w)
    (specId : String) :
    id ∈ (ofWorkflow w specId).ids := by
  rw [mainPath_eq_ids] at hid
  rw [ids, ofWorkflow, List.map_append]
  exact List.mem_append_left _ hid

theorem count_ids_of_mem_mainPath (h : w.IsNumbered) {id : String}
    (hid : id ∈ mainPath w) (specId : String) :
    (ofWorkflow w specId).ids.count id = 1 := by
  have hnone : id ∉ (dependencyNodes w).map Node.id := by
    intro hmem
    obtain ⟨n, hn, rfl⟩ := List.mem_map.mp hmem
    obtain ⟨kind, name, hplain⟩ := exists_id_of_mem_dependencyNodesFrom hn
    exact plainId_notMem_mainPath h kind name (hplain ▸ hid)
  rw [ids, ofWorkflow, List.map_append, ← mainPath_eq_ids, List.count_append,
    List.count_eq_zero.mpr hnone,
    List.count_eq_one_of_mem (nodup_mainPath h) hid]

theorem exists_next (hnode : node ∈ spine w) :
    ∃ before next after, mainPath w = before ++ node :: next :: after := by
  obtain ⟨before, rest, hspine⟩ := List.append_of_mem hnode
  obtain ⟨next, after, hrest⟩ : ∃ next after, rest ++ [endId] = next :: after :=
    List.exists_cons_of_ne_nil (by simp)
  refine ⟨before, next, after, ?_⟩
  rw [mainPath, hspine, List.append_assoc, List.cons_append, hrest]

theorem mem_spine_of_eq (hpath : mainPath w = before ++ node :: next :: after) :
    node ∈ spine w := by
  have hspine := congrArg List.dropLast hpath
  rw [mainPath, List.dropLast_concat, List.dropLast_append_of_ne_nil (by simp),
    List.dropLast_cons_of_ne_nil (by simp)] at hspine
  rw [hspine]
  simp

theorem head?_successors (h : w.IsNumbered) (hsteps : w.steps ≠ [])
    (specId : String) (hpath : mainPath w = before ++ node :: next :: after) :
    ((Adjacency.ofGraph (ofWorkflow w specId)).successors node).head? =
      some next := by
  have hnext : next ∈ mainPath w := by simp [hpath]
  have hknown := hasNode_eq_true_iff.mpr (mem_ids_of_mem_mainPath hnext specId)
  rw [successors_eq_targetsFrom (mem_ids_of_mem_spine (mem_spine_of_eq hpath)
    specId), targetsFrom_edges, targetsFrom_sequenceEdges h hpath hsteps,
    List.singleton_append, List.filter_cons_of_pos hknown, distinct]
  rfl

theorem isSimplePath_mainPath (h : w.IsNumbered) (hsteps : w.steps ≠ [])
    (specId : String) :
    IsSimplePath (Adjacency.ofGraph (ofWorkflow w specId)).successors
      startId endId
      (mainPath w) where
  starts := rfl
  ends := List.getLast?_concat
  nodup := nodup_mainPath h
  chain := by
    refine List.isChain_iff_forall_rel_of_append_cons_cons.mpr ?_
    intro node next before after hpath
    exact List.mem_of_mem_head? (head?_successors h hsteps specId hpath)

end MainPath

/-! ## Execution paths -/

section ExecutionPaths

variable {w : Workflow}

theorem source?_ofWorkflow (w : Workflow) (specId : String) :
    (ofWorkflow w specId).source? = some startNode := rfl

theorem sink?_ofWorkflow (w : Workflow) (specId : String) :
    (ofWorkflow w specId).sink? = some (endNode w.steps.length) := by
  have hsteps : (w.steps.mapIdx nodeOfStep).find? (fun n => n.kind == .finish) =
      none := by
    refine List.find?_eq_none.mpr fun n hn => ?_
    obtain ⟨position, hposition, rfl⟩ := List.mem_mapIdx.mp hn
    change ¬ ((w.steps[position].nodeKind == .finish) = true)
    rw [Step.nodeKind]
    split <;> decide
  have hchain : (chainNodes w.steps).find? (fun n => n.kind == .finish) =
      some (endNode w.steps.length) := by
    rw [chainNodes, List.find?_cons_of_neg (by decide), List.find?_append,
      hsteps]
    rfl
  have hfind : (ofWorkflow w specId).nodes.find? (fun n => n.kind == .finish) =
      some (endNode w.steps.length) := by
    rw [ofWorkflow, List.find?_append, hchain]
    rfl
  rw [sink?, hfind]
  rfl

theorem mem_chainNodes (h : w.IsNumbered) {specId : String} {n : Node}
    (hn : n ∈ (ofWorkflow w specId).nodes) (hid : n.id ∈ mainPath w) :
    n ∈ chainNodes w.steps := by
  refine (List.mem_append.mp hn).resolve_right fun hdependency => ?_
  obtain ⟨kind, name, hplain⟩ :=
    exists_id_of_mem_dependencyNodesFrom hdependency
  exact plainId_notMem_mainPath h kind name (hplain ▸ hid)

theorem countP_step_chainNodes (steps : List Step) :
    ((chainNodes steps).countP fun n => n.kind == .step) =
      steps.countP fun s => !s.isCondition := by
  have hkinds : ((chainNodes steps).countP fun n => n.kind == .step) =
      ((chainNodes steps).map Node.kind).countP (· == .step) := by
    rw [List.countP_map]
    rfl
  have hsteps : (steps.map Step.nodeKind).countP (· == .step) =
      steps.countP fun s => !s.isCondition := by
    rw [List.countP_map]
    refine List.countP_congr fun s _ => ?_
    cases hcondition : s.isCondition <;> simp [Step.nodeKind, hcondition]
  rw [hkinds, map_kind_chainNodes, List.countP_cons_of_neg (by decide),
    List.countP_append, hsteps]
  rfl

theorem countP_step_mainPath (h : w.IsNumbered) (specId : String) :
    ((mainPath w).countP fun id =>
        ∃ n ∈ (ofWorkflow w specId).nodes, n.id = id ∧ n.kind = .step) =
      w.steps.countP fun s => !s.isCondition := by
  rw [← countP_step_chainNodes, mainPath_eq_ids, List.countP_map]
  refine List.countP_congr fun n hn => ?_
  have hid : n.id ∈ mainPath w := by
    rw [mainPath_eq_ids]
    exact List.mem_map_of_mem hn
  have hnodup := nodup_mainPath h
  rw [mainPath_eq_ids] at hnodup
  rw [Function.comp_apply, decide_eq_true_iff, beq_iff_eq]
  constructor
  · rintro ⟨m, hm, heq, hkind⟩
    obtain rfl :=
      List.inj_on_of_nodup_map hnodup (mem_chainNodes h hm (heq ▸ hid)) hn heq
    exact hkind
  · exact fun hkind => ⟨n, List.mem_append_left _ hn, rfl, hkind⟩

theorem startId_ne_endId : startId ≠ endId := by decide

theorem map_nodes_ofWorkflow (w : Workflow) (specId : String) :
    (ofWorkflow w specId).executionPaths.map ExecutionPath.nodes =
      Enumeration.waysOut (Adjacency.ofGraph (ofWorkflow w specId)).successors
        endId
        (ofWorkflow w specId).ids.length [] startId :=
  map_nodes_executionPaths (source?_ofWorkflow w specId)
    (sink?_ofWorkflow w specId) startId_ne_endId

theorem exists_executionPaths_eq (h : w.IsNumbered) (hsteps : w.steps ≠ [])
    (specId : String) :
    ∃ others, (ofWorkflow w specId).executionPaths =
      ⟨mainPath w, w.steps.countP fun s => !s.isCondition⟩ :: others := by
  have hlength : (mainPath w).length ≤ (ofWorkflow w specId).ids.length :=
    (List.subperm_of_subset (nodup_mainPath h) fun id hid =>
      mem_ids_of_mem_mainPath hid specId).length_le
  have hturns := List.isChain_iff_forall_rel_of_append_cons_cons.mpr
    fun node next before after hpath => head?_successors h hsteps specId hpath
  have hnodes := map_nodes_ofWorkflow w specId
  obtain ⟨others, hothers⟩ := Enumeration.exists_waysOut_eq_cons
    (isSimplePath_mainPath h hsteps specId) hturns (fun _ _ => List.not_mem_nil)
    hlength
  rw [hothers] at hnodes
  obtain ⟨⟨nodes, stepCount⟩, paths, hpaths, rfl, -⟩ :=
    List.map_eq_cons_iff.mp hnodes
  have hcount := stepCount_of_mem_executionPaths (hpaths ▸ List.mem_cons_self)
  rw [countP_step_mainPath h] at hcount
  exact ⟨paths, hcount ▸ hpaths⟩

end ExecutionPaths

/-! ## Straight workflows -/

theorem mem_conditionEdges {steps : List Step} {e : Edge}
    (h : e ∈ conditionEdges steps) :
    ∃ before s after, steps = before ++ s :: after ∧ e.source = s.id ∧
      e.target ∈ s.targets := by
  obtain ⟨s, hs, target, htarget, rfl⟩ := exists_of_mem_conditionEdges h
  obtain ⟨before, after, hsteps⟩ := List.append_of_mem hs
  exact ⟨before, s, after, hsteps, rfl, htarget⟩

theorem idxOf_of_nodup {before after : List String} {id : String}
    (h : (before ++ id :: after).Nodup) :
    (before ++ id :: after).idxOf id = before.length := by
  have hnew : id ∉ before := fun hmem =>
    (List.nodup_append.mp h).2.2 id hmem id List.mem_cons_self rfl
  rw [List.idxOf_append_of_notMem hnew, List.idxOf_cons_self, Nat.add_zero]

section Places

variable {w : Workflow} {before after : List String} {node next : String}

theorem idxOf_next (h : w.IsNumbered)
    (hpath : mainPath w = before ++ node :: next :: after) :
    (mainPath w).idxOf next = (mainPath w).idxOf node + 1 := by
  have hnodup := nodup_mainPath h
  rw [hpath] at hnodup ⊢
  rw [idxOf_of_nodup hnodup, List.append_cons] at *
  rw [idxOf_of_nodup hnodup, List.length_append, List.length_singleton]

theorem idxOf_lt_of_mem_spine (hnode : node ∈ spine w) :
    (mainPath w).idxOf node < w.steps.length + 1 := by
  rw [mainPath, List.idxOf_append_of_mem hnode]
  simpa [spine] using List.idxOf_lt_length_of_mem hnode

end Places

section Straight

variable {w : Workflow} {specId : String} {before after : List String}
  {node next : String} (h : w.IsNumbered) (hsteps : w.steps ≠ [])
  (hstraight : IsStraight w.steps)

include h hsteps hstraight

theorem eq_or_notMem_of_mem_successors
    (hpath : mainPath w = before ++ node :: next :: after) {other : String}
    (hother :
      other ∈ (Adjacency.ofGraph (ofWorkflow w specId)).successors node) :
    other = next ∨ other ∉ mainPath w := by
  have hsequence := targetsFrom_sequenceEdges h hpath hsteps
  rw [successors_eq_targetsFrom (mem_ids_of_mem_spine (mem_spine_of_eq hpath)
    specId), mem_distinct, List.mem_filter, targetsFrom_edges, List.mem_append,
    List.mem_append] at hother
  rcases hother.1 with hother | hother | hother
  · rw [hsequence] at hother
    exact .inl (List.mem_singleton.mp hother)
  · obtain ⟨e, he, rfl, rfl⟩ := mem_targetsFrom.mp hother
    obtain ⟨earlier, s, later, hw, hsource, htarget⟩ := mem_conditionEdges he
    rw [hw] at hstraight
    rw [hsource, targetsFrom_sequenceEdges_step h hw,
      hstraight.targets e.target htarget] at hsequence
    exact .inl (List.singleton_inj.mp hsequence)
  · obtain ⟨e, he, -, rfl⟩ := mem_targetsFrom.mp hother
    obtain ⟨-, kind, name, hplain⟩ := ends_of_mem_dependencyEdges he
    exact .inr (hplain ▸ plainId_notMem_mainPath h kind name)

theorem idxOf_of_mem_successors
    (hnext : next ∈ (Adjacency.ofGraph (ofWorkflow w specId)).successors node) :
    node ∈ spine w ∧
      (next ∈ mainPath w → (mainPath w).idxOf next =
        (mainPath w).idxOf node + 1) := by
  have hnode : node ∈ spine w := by
    by_contra hnot
    rw [successors_eq_nil_of_notMem_spine hnot] at hnext
    cases hnext
  refine ⟨hnode, fun hmem => ?_⟩
  obtain ⟨before, next', after, hpath⟩ := exists_next hnode
  obtain rfl :=
    (eq_or_notMem_of_mem_successors h hsteps hstraight hpath
      hnext).resolve_right fun hnot => hnot hmem
  exact idxOf_next h hpath

/-! ## The only path -/

theorem executionPaths_eq_singleton (specId : String) :
    (ofWorkflow w specId).executionPaths =
      [⟨mainPath w, w.steps.countP fun s => !s.isCondition⟩] := by
  have hdead : (mainPath w).IsChain fun node next =>
      ∀ other ∈ (Adjacency.ofGraph (ofWorkflow w specId)).successors node,
        other = next ∨
          (Adjacency.ofGraph (ofWorkflow w specId)).successors other =
            [] ∧ other ≠ endId := by
    refine List.isChain_iff_forall_rel_of_append_cons_cons.mpr
      fun node next before after hpath other hother => ?_
    refine (eq_or_notMem_of_mem_successors h hsteps hstraight hpath
      hother).imp_right fun hnot =>
      ⟨successors_eq_nil_of_notMem_spine ?_ specId, ?_⟩
    · exact fun hmem => hnot (List.mem_append_left _ hmem)
    · rintro rfl
      exact hnot (by simp [mainPath])
  obtain ⟨others, hothers⟩ := exists_executionPaths_eq h hsteps specId
  have hsorted := pairwise_turns_executionPaths (source?_ofWorkflow w specId)
    (sink?_ofWorkflow w specId) startId_ne_endId
  rw [hothers, List.map_cons, List.pairwise_cons] at hsorted
  cases others with
  | nil => exact hothers
  | cons path others =>
      have hmem :
          path.nodes ∈ (ofWorkflow w specId).executionPaths.map
            ExecutionPath.nodes := by
        simp [hothers]
      have hway := (mem_executionPaths_iff (source?_ofWorkflow w specId)
        (sink?_ofWorkflow w specId) startId_ne_endId path.nodes).mp hmem
      have heq :=
        Enumeration.eq_of_isSimplePath (isSimplePath_mainPath h hsteps specId)
        hdead hway
      have hlt := hsorted.1 path.nodes (by simp)
      rw [heq] at hlt
      exact absurd hlt (List.lt_irrefl _)

/-! ## No cycles -/

theorem idxOf_lt_of_transGen
    (hwalk : Relation.TransGen
      (Follows (Adjacency.ofGraph (ofWorkflow w specId)).successors)
      node next) :
    (mainPath w).idxOf node < (mainPath w).idxOf next := by
  have hstep {node next : String}
      (hnext :
        next ∈ (Adjacency.ofGraph (ofWorkflow w specId)).successors node) :
      (mainPath w).idxOf node < (mainPath w).idxOf next := by
    obtain ⟨hnode, hidx⟩ := idxOf_of_mem_successors h hsteps hstraight hnext
    by_cases hmem : next ∈ mainPath w
    · rw [hidx hmem]
      exact Nat.lt_succ_self _
    · rw [List.idxOf_eq_length hmem]
      exact List.idxOf_lt_length_of_mem (List.mem_append_left _ hnode)
  induction hwalk with
  | single hnext => exact hstep hnext
  | tail _ hnext ih => exact Nat.lt_trans ih (hstep hnext)

theorem metadata_cycles_eq_nil (specId : String) :
    (ofWorkflow w specId).metadata.cycles = [] := by
  rw [metadata_cycles, cycles]
  refine (Cycle.find_eq_nil_iff fun node hnode => ?_).mpr ?_
  · exact hnode.mem (fun _ hroot => hroot)
      fun _ _ _ hnext => Adjacency.mem_ids_of_mem_successors hnext
  · rintro ⟨node, -, hwalk⟩
    exact Nat.lt_irrefl _ (idxOf_lt_of_transGen h hsteps hstraight hwalk)

/-! ## The longest distance -/

theorem isEntered_eq_false_iff_eq_startId {id : String}
    (hid : id ∈ mainPath w) :
    (Adjacency.ofGraph (ofWorkflow w specId)).isEntered id = false ↔
    id = startId := by
  rw [Adjacency.isEntered_eq_false_iff]
  constructor
  · intro hnone
    obtain ⟨before, after, hpath⟩ := List.append_of_mem hid
    rcases List.eq_nil_or_concat before with rfl | ⟨before, node, rfl⟩
    · exact (List.cons.inj hpath).1.symm
    · rw [List.concat_eq_append, List.append_assoc] at hpath
      exact absurd
        (List.mem_of_mem_head? (head?_successors h hsteps specId hpath))
        (hnone node)
  · rintro rfl node hnext
    obtain ⟨-, hidx⟩ := idxOf_of_mem_successors h hsteps hstraight hnext
    have hzero : (mainPath w).idxOf startId = 0 := List.idxOf_cons_self
    rw [hidx hid] at hzero
    cases hzero

theorem mem_sources_iff {id : String} (hid : id ∈ mainPath w) :
    id ∈ sources (Adjacency.ofGraph (ofWorkflow w specId))
      (ofWorkflow w specId) ↔
      id = startId := by
  have hroot {id : String} (hid : id ∈ mainPath w) :
      id ∈ (Adjacency.ofGraph (ofWorkflow w specId)).roots ↔ id = startId :=
    (Adjacency.mem_roots_iff (count_ids_of_mem_mainPath h hid specId)).trans
      (isEntered_eq_false_iff_eq_startId h hsteps hstraight hid)
  have hstart := (hroot (List.mem_cons_self : startId ∈ mainPath w)).mpr rfl
  rw [← hroot hid, sources]
  split
  · next hnone =>
      rw [hnone] at hstart
      cases hstart
  · rfl

theorem idxOf_eq_of_reachedIn {root id : String}
    (hroot : root ∈ sources (Adjacency.ofGraph (ofWorkflow w specId))
    (ofWorkflow w specId)) {n : Nat} (hwalk :
    ReachedIn (Adjacency.ofGraph (ofWorkflow w specId)).successors root n id)
    (hid : id ∈ mainPath w) : (mainPath w).idxOf id = n := by
  induction hwalk with
  | root =>
      obtain rfl := (mem_sources_iff h hsteps hstraight hid).mp hroot
      exact List.idxOf_cons_self
  | next _ hnext ih =>
      obtain ⟨hnode, hidx⟩ := idxOf_of_mem_successors h hsteps hstraight hnext
      rw [hidx hid, ih (List.mem_append_left _ hnode)]

theorem least_endId (specId : String) :
    LeastWalk (Adjacency.ofGraph (ofWorkflow w specId)).successors
      (sources (Adjacency.ofGraph (ofWorkflow w specId)) (ofWorkflow w specId))
      endId
      (w.steps.length + 1) := by
  have hpath := isSimplePath_mainPath h hsteps specId
  have hend : (mainPath w)[w.steps.length + 1]? = some endId := by
    rw [← hpath.ends, List.getLast?_eq_getElem?, length_mainPath]
    rfl
  have hstart : startId ∈ mainPath w := List.mem_cons_self
  refine ⟨⟨startId, (mem_sources_iff h hsteps hstraight hstart).mpr rfl,
    .of_isChain hpath.chain hpath.starts hend⟩, fun root hroot m hwalk => ?_⟩
  have hidx : (mainPath w).idxOf endId = w.steps.length + 1 := by
    rw [mainPath, idxOf_of_nodup (nodup_mainPath h)]
    simp [spine]
  rw [← hidx,
    idxOf_eq_of_reachedIn h hsteps hstraight hroot hwalk (by simp [mainPath])]

theorem longestDistance_ofWorkflow (specId : String) :
    (ofWorkflow w specId).longestDistance = w.steps.length + 1 := by
  refine Nat.le_antisymm (longestDistance_le_iff.mpr ?_) ?_
  · rintro ⟨id, n⟩ hentry
    obtain ⟨⟨root, hroot, hwalk⟩, -⟩ := mem_distances_iff.mp hentry
    cases hwalk with
    | root => exact Nat.zero_le _
    | next hwalk hnext =>
        obtain ⟨hnode, -⟩ := idxOf_of_mem_successors h hsteps hstraight hnext
        rw [← idxOf_eq_of_reachedIn h hsteps hstraight hroot hwalk
          (List.mem_append_left _ hnode)]
        exact idxOf_lt_of_mem_spine hnode
  · exact longestDistance_le_iff.mp (Nat.le_refl _) (endId, w.steps.length + 1)
      (mem_distances_iff.mpr (least_endId h hsteps hstraight specId))

end Straight

/-! ## The paths of a workflow -/

/-- The first execution path of a workflow leads from the start through all
steps to the end.  Where no step names a target off this way, it is the only
one, there are no cycles, and no distance is longer than from the start to the
end. -/
theorem mainPath_first (w : Workflow) (h : w.IsNumbered) (hsteps : w.steps ≠ [])
    (specId : String) :
    mainPath w =
      startId :: ((List.range w.steps.length).map Document.stepId ++ [endId]) ∧
    (∃ others, (ofWorkflow w specId).executionPaths =
      ⟨mainPath w, w.steps.countP fun s => !s.isCondition⟩ :: others) ∧
    (IsStraight w.steps →
      (ofWorkflow w specId).executionPaths =
        [⟨mainPath w, w.steps.countP fun s => !s.isCondition⟩] ∧
      (ofWorkflow w specId).metadata.cycles = [] ∧
      (Metrics.ofGraph (ofWorkflow w specId)).longestDistance =
        w.steps.length + 1) :=
  ⟨mainPath_eq h, exists_executionPaths_eq h hsteps specId, fun hstraight =>
    ⟨executionPaths_eq_singleton h hsteps hstraight specId,
      metadata_cycles_eq_nil h hsteps hstraight specId,
      longestDistance_ofWorkflow h hsteps hstraight specId⟩⟩

def straightSteps : Workflow where
  name := "straight"
  description := none
  version := none
  author := none
  steps := [
    { Step.ofName "step-1" "a" with
      agent := some "h", next := some (.one "step-2") },
    { Step.ofName "step-2" "b" with
        kind := "condition", next := some (.many ["step-3", "step-3"]) },
    Step.ofName "step-3" "c"]
  dependencies := [.ofName .agent "h-3", .ofName .agent "h", .ofName .agent "h"]
  metadata := []

theorem mainPath_first_straightSteps :
    straightSteps.IsNumbered ∧ IsStraight straightSteps.steps ∧
      (ofWorkflow straightSteps "spec").executionPaths =
        [⟨["start", "step-1", "step-2", "step-3", "end"], 2⟩] ∧
      (ofWorkflow straightSteps "spec").metadata.cycles = [] ∧
      (Metrics.ofGraph (ofWorkflow straightSteps "spec")).longestDistance =
        4 := by
  have hnumbered : straightSteps.IsNumbered := by
    rw [Workflow.IsNumbered]
    decide +kernel
  have hstraight : IsStraight straightSteps.steps := by decide +kernel
  obtain ⟨-, -, honly⟩ :=
    mainPath_first straightSteps hnumbered (by simp [straightSteps]) "spec"
  exact ⟨hnumbered, hstraight, honly hstraight⟩

end Graph

end Workflows
