import Workflows.Proofs.Analysis.Agreement

/-!
# When a graph is ready

A graph is called ready where there is no sentence about a trouble.  There are
sentences about errors, cycles, isolated nodes and the complexity, but none
about other warnings.  None is needed: once the paths are filled, every warning
is about a cycle.
-/

namespace Workflows

open Resolution Analysis

/-! ## Warnings after the paths are filled -/

theorem Node.lacksPath_iff {n : Node} :
    n.lacksPath = true ↔ ∃ kind, n.Awaits kind := by
  unfold lacksPath Awaits
  cases n.path <;> cases n.kind <;> simp [NodeKind.dependency?]

section

variable {c : Config} {files : FileTree} {base : String} {cache left : Cache}

theorem lacksPath_of_given {n n' : Node}
    (h : (fillPath c files n).given cache.answers = .ok n') :
    n'.lacksPath = false := by
  obtain ⟨hfilled, hkept⟩ := given_fillPath h
  by_cases hawaits : ∃ kind, n.Awaits kind
  · obtain ⟨kind, hkind⟩ := hawaits
    obtain ⟨d, -, rfl⟩ := hfilled kind hkind
    rfl
  · rw [hkept (not_exists.mp hawaits)]
    exact Bool.eq_false_iff.mpr fun hlacks =>
      hawaits (Node.lacksPath_iff.mp hlacks)

theorem filter_lacksPath_of_fillPaths {g filled : Graph}
    (h : (fillPaths c files g).onCache cache = (.ok filled, left)) :
    filled.nodes.filter Node.lacksPath = [] := by
  obtain ⟨hnodes, -, -⟩ := onCache_fillPaths h
  generalize g.nodes = before, filled.nodes = after at hnodes
  induction hnodes with
  | nil => rfl
  | cons hgiven _ ih =>
      rw [List.filter_cons, lacksPath_of_given hgiven]
      exact ih

theorem warnings_of_fillPaths {g filled : Graph}
    (h : (fillPaths c files g).onCache cache = (.ok filled, left)) :
    (Verdict.ofIssues (filled.findings files base)).warnings =
      filled.metadata.cycles.map Graph.cycleFinding := by
  change (filled.findings files base).filter (fun i => i.severity == .warning) =
    _
  rw [Graph.warnings_findings, filter_lacksPath_of_fillPaths h]
  rfl

end

/-! ## The issues of a report -/

theorem Node.PathError.code_ne_missingPath {files : FileTree} {base : String}
    {n : Node} {i : Issue} (h : n.PathError files base i) :
    i.code ≠ IssueCode.missingPath := by
  intro heq
  exact absurd (heq ▸ h.code_mem) (by decide)

namespace Graph

variable {g : Graph} {files : FileTree} {base : String} {i : Issue}

theorem code_ne_missingPath_of_mem_errors
    (h : i ∈ (Verdict.ofIssues (g.findings files base)).errors) :
    i.code ≠ IssueCode.missingPath := by
  change i ∈ (g.findings files base).filter (fun i => i.severity == .error) at h
  rw [errors_findings] at h
  rcases List.mem_append.mp h with hnode | hedge
  · obtain ⟨n, -, hn⟩ := List.mem_filterMap.mp hnode
    exact (Node.pathError?_eq_some_iff.mp hn).code_ne_missingPath
  · obtain ⟨e, -, rfl⟩ := List.mem_map.mp hedge
    exact (by decide : IssueCode.edgeEndpointMissing ≠ IssueCode.missingPath)

theorem code_cycleFinding (cycle : List String) :
    (cycleFinding cycle).code = IssueCode.circularDependency := rfl

theorem severity_of_mem_findings (h : i ∈ g.findings files base) :
    i.severity = .error ∨ i.severity = .warning := by
  rcases List.mem_append.mp h with hgraph | hcycle
  · rcases List.mem_append.mp hgraph with hnode | hedge
    · obtain ⟨n, -, hn⟩ := List.mem_flatMap.mp hnode
      rw [Node.findings_eq] at hn
      rcases List.mem_append.mp hn with hpath | hmissing
      · exact .inl
          (Node.pathError?_eq_some_iff.mp
            (Option.mem_toList.mp hpath)).severity_eq
      · split at hmissing
        · obtain rfl := List.mem_singleton.mp hmissing
          exact .inr rfl
        · cases hmissing
    · exact .inl (severity_of_mem_filterMap hedge)
  · obtain ⟨cycle, -, rfl⟩ := List.mem_map.mp hcycle
    exact .inr rfl

end Graph

theorem Verdict.issues_perm {issues : List Issue}
    (h : ∀ i ∈ issues, i.severity = .error ∨ i.severity = .warning) :
    (ofIssues issues).issues.Perm issues := by
  have hwarnings : issues.filter (fun i => i.severity == .warning) =
      issues.filter (fun i => !(i.severity == .error)) :=
    List.filter_congr fun i hi => by
      rcases h i hi with heq | heq <;> rw [heq] <;> rfl
  change (issues.filter (fun i => i.severity == .error) ++
    issues.filter (fun i => i.severity == .warning)).Perm issues
  rw [hwarnings]
  exact List.filter_append_perm _ issues

/-! ## Sentences -/

namespace AnalysisReport

def readiness : String := "Workflow graph is ready to run."

variable {v : Verdict} {s : GraphStructure}

theorem counted_eq_nil_iff {n : Nat} {before after : String} :
    counted n before after = [] ↔ n = 0 := by
  unfold counted
  split <;> simp [*]

theorem numberWith_eq_zero_iff {issues : List Issue} {code : String}
    (h : ∀ i ∈ issues, i.code = code) :
    numberWith issues code = 0 ↔ issues = [] := by
  rw [numberWith, List.countP_eq_length.mpr fun i hi => beq_iff_eq.mpr (h i hi),
    List.length_eq_zero_iff]

theorem troubles_eq_nil_iff : troubles v s = [] ↔ v.errors = [] ∧
    numberWith v.warnings IssueCode.circularDependency = 0 ∧
    s.metrics.isolated = [] ∧ s.complexity.level ≠ .veryComplex := by
  have hnotFound (herrors : v.errors = []) :
      numberWith v.errors IssueCode.pathNotFound = 0 :=
    herrors ▸ rfl
  simp only [troubles, List.append_eq_nil_iff, counted_eq_nil_iff,
    List.length_eq_zero_iff, List.isEmpty_iff]
  constructor
  · rintro ⟨⟨⟨⟨herrors, -⟩, hcycles⟩, hisolated⟩, hlevel⟩
    exact ⟨herrors, hcycles, by simpa using hisolated, by simpa using hlevel⟩
  · rintro ⟨herrors, hcycles, hisolated, hlevel⟩
    exact ⟨⟨⟨⟨herrors, hnotFound herrors⟩, hcycles⟩, if_pos hisolated⟩,
      if_neg hlevel⟩

theorem eq_of_mem_counted {n : Nat} {before after sentence : String}
    (h : sentence ∈ counted n before after) :
    sentence = before ++ toString n ++ after := by
  unfold counted at h
  split at h
  · cases h
  · exact List.mem_singleton.mp h

theorem head?_of_mem_troubles {sentence : String}
    (h : sentence ∈ troubles v s) :
    sentence.toList.head? ≠ some 'W' := by
  simp only [troubles, List.mem_append] at h
  rcases h with (((herrors | hmissing) | hcycles) | hisolated) | hlevel
  · simp [eq_of_mem_counted herrors]
  · simp [eq_of_mem_counted hmissing]
  · simp [eq_of_mem_counted hcycles]
  · split at hisolated
    · cases hisolated
    · simp [List.mem_singleton.mp hisolated]
  · split at hlevel
    · simp [List.mem_singleton.mp hlevel]
    · cases hlevel

theorem readiness_mem_advise_iff :
    readiness ∈ advise v s ↔ troubles v s = [] := by
  unfold advise
  split
  · next hnil => exact iff_of_true List.mem_cons_self hnil
  · next hsome =>
      exact iff_of_false (fun hmem => head?_of_mem_troubles hmem (by decide))
        hsome

theorem advise_eq_singleton (h : readiness ∈ advise v s) :
    advise v s = [readiness] := by
  rw [advise, readiness_mem_advise_iff.mp h, readiness]

theorem advise_ne_nil : advise v s ≠ [] := by
  unfold advise
  split
  · simp
  · next hsome => exact hsome

end AnalysisReport

/-! ## The report as a whole -/

namespace Graph

theorem isolated_eq_nil_iff {g : Graph} :
    g.isolated = [] ↔ ∀ n ∈ g.nodes, ∃ e ∈ g.edges, e.source = n.id ∨
    e.target = n.id := by
  have hdegree (id : String) :
      g.degree id ≠ 0 ↔ ∃ e ∈ g.edges, e.source = id ∨ e.target = id := by
    rw [degree, Ne, Nat.add_eq_zero_iff, List.countP_eq_zero,
      List.countP_eq_zero]
    simp only [beq_iff_eq, ← forall₂_and, ← not_or]
    push Not
    rfl
  rw [isolated, List.map_eq_nil_iff, List.filter_eq_nil_iff]
  simp only [beq_iff_eq, ← hdegree, Ne]

/-- What is known of the trouble with a graph: the issues that its nodes carry,
and those of its edges and its recorded cycles. -/
def knownIssues (g : Graph) : List Issue :=
  g.nodes.flatMap Node.issues ++ g.edges.filterMap g.edgeFinding? ++
    g.metadata.cycles.map cycleFinding

theorem knownIssues_validate (g : Graph) (files : FileTree)
    (base now : String) :
    (g.validate files base now).1.knownIssues = g.findings files base := by
  have hids : (g.validate files base now).1.ids = g.ids := List.map_map
  have hnodes : (g.validate files base now).1.nodes.flatMap Node.issues =
      g.nodes.flatMap (Node.findings files base) := List.flatMap_map ..
  have hedges : (g.validate files base now).1.edges.filterMap
      (g.validate files base now).1.edgeFinding? =
      g.edges.filterMap g.edgeFinding? := by
    rw [edgeFinding?_congr hids]
    exact List.filterMap_map
  rw [knownIssues, hnodes, hedges]
  rfl

end Graph

/-- A report is about the graph, and its parts fit together. -/
structure AnalysisReport.Consistent (g : Graph) (r : AnalysisReport) :
    Prop where
  structural_eq : r.structural = .ofGraph g
  issues_eq : r.issues = r.verdict.errors ++ r.verdict.warnings
  issues_perm : r.issues.Perm g.knownIssues
  warnings_eq : r.verdict.warnings = g.metadata.cycles.map Graph.cycleFinding
  code_ne_missingPath : ∀ i ∈ r.issues, i.code ≠ IssueCode.missingPath
  recommendations_ne_nil : r.recommendations ≠ []
  ready_iff : readiness ∈ r.recommendations ↔ r.verdict.status = .valid ∧
    (∀ n ∈ g.nodes, ∃ e ∈ g.edges, e.source = n.id ∨ e.target = n.id) ∧
    r.structural.complexity.level ≠ .veryComplex
  ready_alone : readiness ∈ r.recommendations → r.recommendations = [readiness]

/-- Of any graph, whatever the cache and the files hold, the analysis makes a
report that fits it. -/
theorem analyze_consistent (c : Config) (files : FileTree) (now : String)
    (g : Graph) (cache : Cache) (g' : Graph) (report : AnalysisReport)
    (left : Cache)
    (h : (analyze c files now g).onCache cache = (.ok (g', report), left)) :
    report.Consistent g' := by
  obtain ⟨filled, hfilled, rfl, rfl⟩ := exists_filled_of_analyze h
  have hwarnings : (validate c files now filled).2.warnings =
      filled.metadata.cycles.map Graph.cycleFinding :=
    warnings_of_fillPaths hfilled
  have hcycle : ∀ i ∈ (validate c files now filled).2.warnings,
      i.code = IssueCode.circularDependency := by
    rw [hwarnings]
    exact List.forall_mem_map.mpr fun cycle _ => Graph.code_cycleFinding cycle
  constructor
  · rfl
  · rfl
  · rw [validate, Graph.knownIssues_validate]
    exact Verdict.issues_perm fun i => Graph.severity_of_mem_findings
  · exact hwarnings
  · intro i hi
    rcases List.mem_append.mp hi with herror | hwarning
    · exact Graph.code_ne_missingPath_of_mem_errors herror
    · rw [hcycle i hwarning]
      decide
  · exact AnalysisReport.advise_ne_nil
  · refine AnalysisReport.readiness_mem_advise_iff.trans ?_
    rw [AnalysisReport.troubles_eq_nil_iff,
      AnalysisReport.numberWith_eq_zero_iff hcycle]
    have hstatus :=
      (Verdict.status_ofIssues (filled.findings files c.basePath)).2.2
    change (validate c files now filled).2.status = .valid ↔
      (validate c files now filled).2.errors = [] ∧ _ = [] at hstatus
    rw [AnalysisReport.ofGraph, hstatus, and_assoc, ← Graph.isolated_eq_nil_iff]
    rfl
  · exact AnalysisReport.advise_eq_singleton

def oneUser : Graph :=
  { twoAgents with
    nodes := [.bare "step-1" .step "Run", agentX]
    edges := [.bare "uses-x" "step-1" "agent-x" .dependency] }

theorem analyze_consistent_oneUser :
    ∃ g' report left,
      (analyze (.ofBase "registry") oneAgent "now" oneUser).onCache .empty =
          (.ok (g', report), left) ∧
        report.Consistent g' ∧ report.recommendations =
          [AnalysisReport.readiness] ∧
        report.verdict.status = .valid := by
  have hreport :
      ((analyze (.ofBase "registry") oneAgent "now" oneUser).onCache
        .empty).1.map (fun result =>
        (result.2.recommendations, result.2.verdict.status)) =
      .ok ([AnalysisReport.readiness], .valid) := by
    decide +kernel
  obtain ⟨⟨g', report⟩, left, hrun, hseen⟩ :=
    Resolving.exists_of_map_onCache hreport
  obtain ⟨hsentences, hstatus⟩ := Prod.mk.inj hseen
  exact ⟨g', report, left, hrun,
    analyze_consistent _ _ _ _ _ g' report left hrun, hsentences, hstatus⟩

end Workflows
