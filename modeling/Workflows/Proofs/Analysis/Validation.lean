import Mathlib.Data.List.Forall2
import Workflows.Analysis.Validation

/-!
# What a validation accounts for

A validation merges what it finds about nodes, edges and cycles into one list
and parts that list by severity again.  Every error and every warning belongs to
one node, edge or cycle, and the marks of the graph and its status say the same
as the two lists.
-/

namespace Workflows

/-! ## Nodes -/

def Node.subject (n : Node) : String := n.kind.name ++ " '" ++ n.name ++ "'"

/-- The error about the path of a node, by what the file tree has there. -/
inductive Node.PathError (files : FileTree) (base : String) (n : Node) :
    Issue → Prop
  | notFound {path : String} (hpath : n.path = some path)
      (hlocate : files.locate (Path.join base path) = .error .notFound) :
      PathError files base n ((Issue.error IssueCode.pathNotFound
        (n.subject ++ " not found at " ++ Path.join base path)).located path)
  | notAccessible {path : String} (hpath : n.path = some path)
      (hlocate : files.locate (Path.join base path) = .error .permissionDenied ∨
        ∃ place entry, files.locate (Path.join base path) = .ok (place, entry) ∧
          entry.mayRead = false) :
      PathError files base n ((Issue.error IssueCode.pathNotAccessible
        (n.subject ++ " is not accessible at " ++ Path.join base path)).located
        path)
  | checkFailed {path : String} {cause : AccessError}
      (hpath : n.path = some path)
      (hlocate : files.locate (Path.join base path) = .error cause)
      (hfound : cause ≠ .notFound) (hdenied : cause ≠ .permissionDenied) :
      PathError files base n ((Issue.error IssueCode.pathCheckFailed
        (ResolutionError.access (Path.join base path) cause).message).located
        path)

namespace Node

def pathError? (files : FileTree) (base : String) (n : Node) : Option Issue :=
  n.path.bind fun path => (pathIssues files base n path).head?

def lacksPath (n : Node) : Bool :=
  n.path.isNone && (n.kind == .agent || n.kind == .workflow || n.kind ==
    .resource)

def missingPath (n : Node) : Issue :=
  (Issue.warning IssueCode.missingPath
    (n.kind.name ++ " '" ++ n.name ++ "' has no resolved path")).located n.id

section

variable {files : FileTree} {base : String} {n : Node}

theorem pathIssues_eq (files : FileTree) (base : String)
    (n : Node) (path : String) :
    pathIssues files base n path =
      (pathIssues files base n path).head?.toList := by
  unfold pathIssues inspectionIssues
  dsimp only
  split
  · split
    · rfl
    · split <;> rfl
  · rfl

theorem pathError_of_mem_pathIssues {path : String} (hpath : n.path = some path)
    {i : Issue} (h : i ∈ pathIssues files base n path) :
    n.PathError files base i := by
  unfold pathIssues FileTree.inspect at h
  rcases hlocate : files.locate (Path.join base path) with
      cause | ⟨place, entry⟩
  · cases cause <;> rw [hlocate] at h <;> obtain rfl := List.mem_singleton.mp h
    case notFound => exact .notFound hpath hlocate
    case permissionDenied => exact .notAccessible hpath (.inl hlocate)
    all_goals exact .checkFailed hpath hlocate nofun nofun
  · rw [hlocate] at h
    cases hread : entry.mayRead with
    | true => simp [hread, inspectionIssues, PathReport.opened] at h
    | false =>
        simp only [hread] at h
        obtain rfl := List.mem_singleton.mp h
        exact .notAccessible hpath (.inr ⟨place, entry, hlocate, hread⟩)

theorem PathError.pathIssues_eq {i : Issue} (h : n.PathError files base i) :
    ∃ path, n.path = some path ∧ pathIssues files base n path = [i] := by
  cases h with
  | @notFound path hpath hlocate =>
      refine ⟨path, hpath, ?_⟩
      simp only [pathIssues, FileTree.inspect, hlocate]
      rfl
  | @notAccessible path hpath hlocate =>
      refine ⟨path, hpath, ?_⟩
      rcases hlocate with hlocate | ⟨place, entry, hlocate, hread⟩
      · simp only [pathIssues, FileTree.inspect, hlocate]
        rfl
      · simp only [pathIssues, FileTree.inspect, hlocate, hread]
        rfl
  | @checkFailed path cause hpath hlocate hfound hdenied =>
      refine ⟨path, hpath, ?_⟩
      simp only [pathIssues, FileTree.inspect, hlocate]
      rfl

theorem pathError?_eq_some_iff {i : Issue} :
    n.pathError? files base = some i ↔ n.PathError files base i := by
  constructor
  · intro h
    obtain ⟨path, hpath, hhead⟩ := Option.bind_eq_some_iff.mp h
    exact pathError_of_mem_pathIssues hpath (List.mem_of_mem_head? hhead)
  · intro h
    obtain ⟨path, hpath, hissues⟩ := h.pathIssues_eq
    rw [pathError?, hpath, Option.bind_some, hissues]
    rfl

theorem PathError.code_mem {i : Issue} (h : n.PathError files base i) :
    i.code ∈ [IssueCode.pathNotFound, IssueCode.pathNotAccessible,
      IssueCode.pathCheckFailed] := by
  cases h <;> simp [Issue.error, Issue.located]

theorem PathError.severity_eq {i : Issue} (h : n.PathError files base i) :
    i.severity = .error := by
  cases h <;> rfl

theorem findings_eq (files : FileTree) (base : String) (n : Node) :
    n.findings files base =
      (n.pathError? files base).toList ++ if n.lacksPath then [n.missingPath]
        else [] := by
  unfold findings pathError? lacksPath
  cases n.path with
  | some path => simpa using pathIssues_eq files base n path
  | none =>
      cases hkind : n.kind <;> simp [NodeKind.dependency?, missingPath, hkind]

theorem errors_findings (files : FileTree) (base : String) (n : Node) :
    (n.findings files base).filter (fun i => i.severity == .error) =
      (n.pathError? files base).toList := by
  rw [findings_eq, List.filter_append]
  have hwarning : (if n.lacksPath then [n.missingPath] else []).filter
      (fun i => i.severity == .error) = [] := by
    cases n.lacksPath <;> rfl
  rw [hwarning, List.append_nil]
  cases h : n.pathError? files base with
  | none => rfl
  | some i => simp [(pathError?_eq_some_iff.mp h).severity_eq]

theorem warnings_findings (files : FileTree) (base : String) (n : Node) :
    (n.findings files base).filter (fun i => i.severity == .warning) =
      if n.lacksPath then [n.missingPath] else [] := by
  rw [findings_eq, List.filter_append]
  have hwarning : (if n.lacksPath then [n.missingPath] else []).filter
      (fun i => i.severity == .warning) = if n.lacksPath then [n.missingPath]
      else [] := by
    cases n.lacksPath <;> rfl
  rw [hwarning]
  cases h : n.pathError? files base with
  | none => rfl
  | some i => simp [(pathError?_eq_some_iff.mp h).severity_eq]

end

end Node

/-! ## Edges -/

namespace Graph

def isDangling (g : Graph) (e : Edge) : Bool :=
  e.source ∉ g.ids || e.target ∉ g.ids

def endpointMissing (g : Graph) (e : Edge) : Issue :=
  let unknown := if e.source ∈ g.ids then e.target else e.source
  (Issue.error IssueCode.edgeEndpointMissing
    ("Edge '" ++ e.id ++ "' references unknown node '" ++ unknown ++
      "'")).located e.id

theorem hasEnds_eq (g : Graph) (e : Edge) : g.hasEnds e = !g.isDangling e := by
  rw [hasEnds, isDangling, Bool.eq_iff_iff]
  simp only [Bool.and_eq_true, hasNode_eq_true_iff, Bool.not_eq_true',
    Bool.or_eq_false_iff, decide_eq_false_iff_not, not_not]

theorem edgeFinding?_eq (g : Graph) (e : Edge) :
    g.edgeFinding? e = if g.isDangling e then some (g.endpointMissing e)
      else none := by
  rw [edgeFinding?, hasEnds_eq]
  cases g.isDangling e with
  | false => rfl
  | true => simp [endpointMissing, hasNode_eq_true_iff]

theorem hasEnds_congr {g g' : Graph} (h : g.ids = g'.ids) :
    g.hasEnds = g'.hasEnds := by
  funext e
  rw [hasEnds_eq, hasEnds_eq, isDangling, isDangling, h]

theorem edgeFinding?_congr {g g' : Graph} (h : g.ids = g'.ids) :
    g.edgeFinding? = g'.edgeFinding? := by
  funext e
  rw [edgeFinding?_eq, edgeFinding?_eq, isDangling, isDangling, endpointMissing,
    endpointMissing, h]

theorem severity_of_mem_filterMap {g : Graph} {i : Issue}
    (h : i ∈ g.edges.filterMap g.edgeFinding?) : i.severity = .error := by
  obtain ⟨e, -, he⟩ := List.mem_filterMap.mp h
  rw [edgeFinding?_eq] at he
  split at he <;> cases he
  rfl

/-! ## The whole graph -/

section

variable (g : Graph) (files : FileTree) (base : String)

theorem errors_findings :
    (g.findings files base).filter (fun i => i.severity == .error) =
      g.nodes.filterMap (Node.pathError? files base) ++
        (g.edges.filter g.isDangling).map g.endpointMissing := by
  have hnodes : (g.nodes.flatMap (Node.findings files base)).filter
      (fun i => i.severity == .error) =
      g.nodes.filterMap (Node.pathError? files base) := by
    rw [List.filter_flatMap, List.filterMap_eq_flatMap_toList]
    exact congrArg (g.nodes.flatMap ·)
      (funext (Node.errors_findings files base))
  have hedges : (g.edges.filterMap g.edgeFinding?).filter (fun i =>
      i.severity == .error) =
      (g.edges.filter g.isDangling).map g.endpointMissing := by
    rw [List.filter_eq_self.mpr fun i hi =>
      by rw [severity_of_mem_filterMap hi]; rfl, ← List.filterMap_eq_map,
      List.filterMap_filter]
    exact congrArg (List.filterMap · g.edges) (funext g.edgeFinding?_eq)
  have hcycles : (g.metadata.cycles.map cycleFinding).filter
      (fun i => i.severity == .error) = [] := by
    simp [List.filter_eq_nil_iff, cycleFinding, Issue.warning, Issue.located]
  rw [findings, List.filter_append, List.filter_append, hnodes, hedges, hcycles,
    List.append_nil]

theorem warnings_findings :
    (g.findings files base).filter (fun i => i.severity == .warning) =
      (g.nodes.filter Node.lacksPath).map Node.missingPath ++
        g.metadata.cycles.map cycleFinding := by
  have hnodes : (g.nodes.flatMap (Node.findings files base)).filter
      (fun i => i.severity == .warning) =
        (g.nodes.filter Node.lacksPath).map Node.missingPath := by
    rw [List.filter_flatMap, ← List.filterMap_eq_map, List.filterMap_filter,
      List.filterMap_eq_flatMap_toList]
    refine congrArg (g.nodes.flatMap ·) (funext fun n => ?_)
    rw [Node.warnings_findings]
    cases n.lacksPath <;> rfl
  have hedges : (g.edges.filterMap g.edgeFinding?).filter
      (fun i => i.severity == .warning) = [] :=
    List.filter_eq_nil_iff.mpr fun i hi => by
      simp [severity_of_mem_filterMap hi]
  have hcycles : (g.metadata.cycles.map cycleFinding).filter
      (fun i => i.severity == .warning) =
      g.metadata.cycles.map cycleFinding := by
    simp [List.filter_eq_self, cycleFinding, Issue.warning, Issue.located]
  rw [findings, List.filter_append, List.filter_append, hnodes, hedges, hcycles,
    List.append_nil]

end

end Graph

/-! ## The verdict -/

theorem Verdict.status_ofIssues (issues : List Issue) :
    ((ofIssues issues).status = .invalid ↔ (ofIssues issues).errors ≠ []) ∧
      ((ofIssues issues).status = .warning ↔
        (ofIssues issues).errors = [] ∧ (ofIssues issues).warnings ≠ []) ∧
      ((ofIssues issues).status = .valid ↔
        (ofIssues issues).errors = [] ∧ (ofIssues issues).warnings = []) := by
  simp only [ofIssues]
  generalize issues.filter (fun i => i.severity == .error) = errors
  generalize issues.filter (fun i => i.severity == .warning) = warnings
  cases errors <;> cases warnings <;> simp

namespace Graph

end Graph

end Workflows
