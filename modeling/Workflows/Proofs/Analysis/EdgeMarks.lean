import Workflows.Proofs.Analysis.Validation
import Workflows.Proofs.Graph.ChainCycles

/-!
# The marks of edges

A validation marks an edge by its ends: whether there are such nodes, and where
one of them has a path, whether both are valid.  In a built graph the sequence
and the dependency edges lead from node to node, whatever ids the steps have.
Only the target of a condition edge is for the author of a step to name, and
only that can be unknown.
-/

namespace Workflows

def Node.IsSound (n : Node) : Prop := ∀ i ∈ n.issues, i.severity ≠ .error

def Edge.unknownEnd (e : Edge) (id : String) : Issue :=
  (Issue.error IssueCode.edgeEndpointMissing
    ("Edge '" ++ e.id ++ "' references unknown node '" ++ id ++ "'")).located
    e.id

def Verdict.endErrors (v : Verdict) : List Issue :=
  v.errors.filter fun i => i.code == IssueCode.edgeEndpointMissing

namespace Graph

def Touches (g : Graph) (e : Edge) (n : Node) : Prop :=
  g.node? e.source = some n ∨ g.node? e.target = some n

/-! ## Paths of the ends -/

theorem mem_ids_iff_exists_node? {g : Graph} {id : String} :
    id ∈ g.ids ↔ ∃ n, g.node? id = some n := by
  rw [← hasNode_eq_true_iff, hasNode, node?, ← Option.isSome_iff_exists,
    List.find?_isSome, List.any_eq_true]

theorem pathResolved?_eq_some_iff {g : Graph} {e : Edge} {resolved : Bool} :
    pathResolved? g.nodes e = some resolved ↔
      ∃ source target, g.node? e.source = some source ∧
      g.node? e.target = some target ∧
        (source.path.isSome = true ∨ target.path.isSome = true) ∧
        (source.validated && target.validated) = resolved := by
  unfold pathResolved? node?
  cases g.nodes.find? fun n => n.id == e.source with
  | none => simp
  | some source =>
      cases g.nodes.find? fun n => n.id == e.target with
      | none => simp
      | some target => simp

theorem pathResolved?_isSome_iff {g : Graph} {e : Edge} :
    (pathResolved? g.nodes e).isSome = true ↔
      e.source ∈ g.ids ∧ e.target ∈ g.ids ∧ ∃ n, g.Touches e n ∧
      n.path.isSome = true := by
  rw [Option.isSome_iff_exists, mem_ids_iff_exists_node?,
    mem_ids_iff_exists_node?]
  simp only [pathResolved?_eq_some_iff, Touches]
  constructor
  · rintro ⟨-, source, target, hsource, htarget, hpath | hpath, -⟩
    · exact ⟨⟨source, hsource⟩, ⟨target, htarget⟩, source, .inl hsource, hpath⟩
    · exact ⟨⟨source, hsource⟩, ⟨target, htarget⟩, target, .inr htarget, hpath⟩
  · rintro ⟨⟨source, hsource⟩, ⟨target, htarget⟩, n, hn | hn, hpath⟩
    · obtain rfl := Option.some.inj (hsource.symm.trans hn)
      exact ⟨_, source, target, hsource, htarget, .inl hpath, rfl⟩
    · obtain rfl := Option.some.inj (htarget.symm.trans hn)
      exact ⟨_, source, target, hsource, htarget, .inr hpath, rfl⟩

section

variable {g : Graph} {files : FileTree} {base now : String}

theorem pathResolved_of_mem {e : Edge}
    (h : e ∈ (g.validate files base now).1.edges) :
    e.pathResolved = pathResolved? (g.validate files base now).1.nodes e := by
  obtain ⟨e, -, rfl⟩ := List.mem_map.mp h
  rfl

theorem validated_iff_isSound {n : Node}
    (h : n ∈ (g.validate files base now).1.nodes) :
    n.validated = true ↔ n.IsSound := by
  obtain ⟨n, -, rfl⟩ := List.mem_map.mp h
  change (!(n.findings files base).any Issue.isError) = true ↔
    ∀ i ∈ n.findings files base, i.severity ≠ .error
  simp [Issue.isError]

theorem pathResolved_eq_true_iff {e : Edge}
    (he : e ∈ (g.validate files base now).1.edges) {resolved : Bool}
    (h : e.pathResolved = some resolved) :
    resolved = true ↔ ∀ n, (g.validate files base now).1.Touches e n →
    n.IsSound := by
  rw [pathResolved_of_mem he] at h
  obtain ⟨source, target, hsource, htarget, -, rfl⟩ :=
    pathResolved?_eq_some_iff.mp h
  rw [Bool.and_eq_true,
    validated_iff_isSound (List.mem_of_find?_eq_some hsource),
    validated_iff_isSound (List.mem_of_find?_eq_some htarget)]
  constructor
  · rintro ⟨hsound, hsound'⟩ n (hn | hn)
    · exact Option.some.inj (hsource.symm.trans hn) ▸ hsound
    · exact Option.some.inj (htarget.symm.trans hn) ▸ hsound'
  · intro hall
    exact ⟨hall source (.inl hsource), hall target (.inr htarget)⟩

/-! ## Unknown ends -/

theorem endErrors_validate (g : Graph) (files : FileTree) (base now : String) :
    (g.validate files base now).2.endErrors =
      (g.edges.filter g.isDangling).map g.endpointMissing := by
  change ((g.findings files base).filter fun i => i.severity == .error).filter
    _ = _
  rw [errors_findings, List.filter_append]
  have hpaths : (g.nodes.filterMap (Node.pathError? files base)).filter
      (fun i => i.code == IssueCode.edgeEndpointMissing) = [] := by
    refine List.filter_eq_nil_iff.mpr fun i hi => ?_
    obtain ⟨n, -, hn⟩ := List.mem_filterMap.mp hi
    have hcode := (Node.pathError?_eq_some_iff.mp hn).code_mem
    rw [beq_iff_eq]
    intro heq
    rw [heq] at hcode
    exact absurd hcode (by decide)
  have hedges : ((g.edges.filter g.isDangling).map g.endpointMissing).filter
      (fun i => i.code == IssueCode.edgeEndpointMissing) =
        (g.edges.filter g.isDangling).map g.endpointMissing := by
    refine List.filter_eq_self.mpr fun i hi => ?_
    obtain ⟨e, -, rfl⟩ := List.mem_map.mp hi
    exact beq_self_eq_true _
  rw [hpaths, hedges, List.nil_append]

end

/-! ## Ends in a built graph -/

section

variable {w : Workflow} {specId : String} {e : Edge}

theorem source_mem_ids (he : e ∈ (ofWorkflow w specId).edges) :
    e.source ∈ (ofWorkflow w specId).ids :=
  mem_ids_of_mem_spine (source_mem_spine he) specId

theorem target_mem_ids_of_mem_sequenceEdges (he : e ∈ sequenceEdges w.steps) :
    e.target ∈ (ofWorkflow w specId).ids := by
  rw [sequenceEdges] at he
  split at he
  · cases he
  · have htarget := List.mem_of_mem_tail (ends_of_mem_chainEdges he).2
    rw [← map_id_chainNodes] at htarget
    rw [ids, ofWorkflow, List.map_append]
    exact List.mem_append_left _ htarget

theorem target_mem_ids_of_mem_dependencyEdges (he : e ∈ dependencyEdges w) :
    e.target ∈ (ofWorkflow w specId).ids := by
  obtain ⟨s, -, n, hn, rfl⟩ := exists_of_mem_dependencyEdges he
  rw [ids, ofWorkflow, List.map_append]
  exact List.mem_append_right _ (List.mem_map_of_mem hn)

theorem isDangling_iff (he : e ∈ (ofWorkflow w specId).edges) :
    (ofWorkflow w specId).isDangling e = true ↔
      e.kind = .condition ∧ e.target ∉ (ofWorkflow w specId).ids := by
  have hdangling : (ofWorkflow w specId).isDangling e = true ↔
      e.target ∉ (ofWorkflow w specId).ids := by
    rw [isDangling, Bool.or_eq_true, decide_eq_true_iff, decide_eq_true_iff,
      or_iff_right (not_not.mpr (source_mem_ids he))]
  rw [hdangling, iff_and_self]
  intro hunknown
  -- the chain and the dependency edges are laid between nodes that are there
  rcases mem_edges_iff.mp he with hsequence | hcondition | hdependency
  · exact absurd (target_mem_ids_of_mem_sequenceEdges hsequence) hunknown
  · exact kind_of_mem_conditionEdges hcondition
  · exact absurd (target_mem_ids_of_mem_dependencyEdges hdependency) hunknown

end

/-! ## Edges after a validation -/

/-- The edges are those of before one by one, with other marks. -/
def SameEdges (g g' : Graph) : Prop :=
  List.Forall₂ (fun e e' => e' =
    { e with validated := e'.validated, pathResolved := e'.pathResolved })
      g.edges g'.edges

theorem sameEdges_validate (g : Graph) (files : FileTree) (base now : String) :
    SameEdges g (g.validate files base now).1 :=
  List.forall₂_map_right_iff.mpr (List.forall₂_same.mpr fun _ _ => rfl)

/-- The marks of the edges, and the errors about their ends. -/
structure EdgeMarks (g g' : Graph) (v : Verdict) : Prop where
  edges : SameEdges g g'
  isSome_iff : ∀ e ∈ g'.edges, e.pathResolved.isSome = true ↔
    e.source ∈ g'.ids ∧ e.target ∈ g'.ids ∧ ∃ n, g'.Touches e n ∧
    n.path.isSome = true
  true_iff : ∀ e ∈ g'.edges, ∀ resolved, e.pathResolved = some resolved →
    (resolved = true ↔ ∀ n, g'.Touches e n → n.IsSound)
  endErrors : v.endErrors =
    (g.edges.filter fun e => e.source ∉ g.ids ∨ e.target ∉ g.ids).map fun e =>
      e.unknownEnd (if e.source ∈ g.ids then e.target else e.source)

/-- In a graph that was built only a condition edge can name an unknown node, as
its target. -/
structure BuiltEdgeMarks (g g' : Graph) (v : Verdict) : Prop where
  edges : SameEdges g g'
  validated : ∀ e ∈ g'.edges, e.kind = .sequence ∨ e.kind = .dependency →
    e.validated = true
  endErrors : v.endErrors =
    (g.edges.filter fun e => e.kind = .condition ∧ e.target ∉ g.ids).map
      fun e =>
      e.unknownEnd e.target

theorem edgeMarks_validate (g : Graph) (files : FileTree) (base now : String) :
    EdgeMarks g (g.validate files base now).1
      (g.validate files base now).2 where
  edges := sameEdges_validate g files base now
  isSome_iff := by
    intro e he
    rw [pathResolved_of_mem he, pathResolved?_isSome_iff]
  true_iff := fun e he resolved => pathResolved_eq_true_iff he
  endErrors := by
    have hdangling : g.edges.filter g.isDangling =
        g.edges.filter fun e => e.source ∉ g.ids ∨ e.target ∉ g.ids :=
      List.filter_congr fun e _ => (Bool.decide_or _ _).symm
    rw [endErrors_validate, hdangling]
    rfl

theorem builtEdgeMarks_validate (w : Workflow) (specId : String)
    (files : FileTree) (base now : String) :
    BuiltEdgeMarks (ofWorkflow w specId)
      ((ofWorkflow w specId).validate files base now).1
      ((ofWorkflow w specId).validate files base now).2 where
  edges := sameEdges_validate _ files base now
  validated := by
    intro e he hkind
    obtain ⟨e, hmem, rfl⟩ := List.mem_map.mp he
    change (ofWorkflow w specId).hasEnds e = true
    rw [hasEnds_eq, Bool.not_eq_true', Bool.eq_false_iff, Ne,
      isDangling_iff hmem]
    rintro ⟨hcondition, -⟩
    rw [hcondition] at hkind
    rcases hkind with hkind | hkind <;> cases hkind
  endErrors := by
    have hdangling :
        (ofWorkflow w specId).edges.filter (ofWorkflow w specId).isDangling =
        (ofWorkflow w specId).edges.filter fun e =>
          e.kind = .condition ∧ e.target ∉ (ofWorkflow w specId).ids := by
      refine List.filter_congr fun e he => ?_
      rw [Bool.eq_iff_iff, isDangling_iff he, decide_eq_true_iff]
    rw [endErrors_validate, hdangling]
    refine List.map_congr_left fun e he => ?_
    have hsource : e.source ∈ (ofWorkflow w specId).ids :=
      source_mem_ids (List.mem_of_mem_filter he)
    rw [endpointMissing, if_pos hsource]
    rfl

/-- Of every graph a validation marks the edges by their ends; and of a graph
that was built it finds unknown ends only where a condition edge names them. -/
theorem validate_marks_edges (files : FileTree) (base now : String) :
    (∀ g : Graph,
      EdgeMarks g (g.validate files base now).1 (g.validate files base now).2) ∧
      ∀ w specId, BuiltEdgeMarks (ofWorkflow w specId)
        ((ofWorkflow w specId).validate files base now).1
        ((ofWorkflow w specId).validate files base now).2 :=
  ⟨fun g => edgeMarks_validate g files base now,
    fun w specId => builtEdgeMarks_validate w specId files base now⟩

end Graph

end Workflows
