import Mathlib.Data.List.Forall2
import Workflows.Analysis.Report
import Workflows.Proofs.Analysis.SystemBase
import Workflows.Proofs.Resolution.Answers

/-!
# Resolver and validation look at one place

A node that stands for a dependency gets the path of the resolver's entry, seen
from the base.  Taken from the base again that path leads to where the entry is,
so what the validation finds there is what the resolver found.
-/

namespace Workflows

open Resolution Analysis

/-! ## Paths that nodes get -/

namespace Node

def FilledBy (c : Config) (d : ResolvedDependency) (n n' : Node) : Prop :=
  ∃ path, n' = { n with path := some path } ∧
    Path.samePlace (c.underBase path) (locate c d) = true

end Node

section

variable {c : Config} {files : FileTree} {n : Node} {kind : DependencyKind}

theorem filledBy_pathFromBase (c : Config) (d : ResolvedDependency) (n : Node) :
    n.FilledBy c d { n with path := some (pathFromBase c d) } := by
  have hplace := samePlace_pathFromSystemBase c (.ofText c.basePath) d
  rw [pathFromSystemBase_ofText, SystemPath.join_ofText, systemLocate_ofText,
    SystemPath.samePlace_ofText] at hplace
  exact ⟨_, rfl, hplace⟩

theorem fillPath_of_awaits (h : n.Awaits kind) :
    fillPath c files n = resolve c files kind n.name none >>= fun d =>
      pure { n with path := some (pathFromBase c d) } := by
  rw [fillPath, h.1, h.2]

theorem fillPath_of_not_awaits (h : ∀ kind, ¬ n.Awaits kind) :
    fillPath c files n = pure n := by
  unfold fillPath
  split
  · next hpath hkind => exact absurd ⟨hpath, hkind⟩ (h _)
  · rfl

theorem asksOn_fillPath (c : Config) (files : FileTree) (n : Node) :
    (fillPath c files n).AsksOn c files := by
  unfold fillPath
  split
  · exact ⟨rfl, rfl, fun _ => trivial⟩
  · exact trivial

theorem asksOn_fillPaths (c : Config) (files : FileTree) (g : Graph) :
    (fillPaths c files g).AsksOn c files :=
  (Resolving.AsksOn.mapM (asksOn_fillPath c files) g.nodes).bind fun _ =>
    trivial

theorem onCache_fillPath {n' : Node} {cache left : Cache}
    (hawaits : n.Awaits kind)
    (h : (fillPath c files n).onCache cache = (.ok n', left)) :
    ∃ d, (resolve c files kind n.name none).onCache cache = (.ok d, left) ∧
      n.FilledBy c d n' := by
  rw [fillPath_of_awaits hawaits] at h
  obtain ⟨d, between, hresolve, hfill, -⟩ := Resolving.exists_of_bind h
  cases hfill
  exact ⟨d, hresolve, filledBy_pathFromBase c d n⟩

theorem given_fillPath {n' : Node} {cache : Cache}
    (h : (fillPath c files n).given cache.answers = .ok n') :
    (∀ kind, n.Awaits kind → ∃ d,
      cache.answers ⟨c, files, kind, n.name, none⟩ = .ok d ∧
        n' = { n with path := some (pathFromBase c d) }) ∧
      ((∀ kind, ¬ n.Awaits kind) → n' = n) := by
  constructor
  · intro kind hawaits
    rw [fillPath_of_awaits hawaits, Resolving.given_bind] at h
    obtain ⟨d, hd, hn'⟩ := exists_of_bind_ok h
    cases hn'
    obtain ⟨e, hanswer, he⟩ := exists_of_bind_ok hd
    cases he
    exact ⟨d, hanswer, rfl⟩
  · intro hnot
    rw [fillPath_of_not_awaits hnot] at h
    cases h
    rfl

theorem onCache_fillPaths {g g' : Graph} {cache left : Cache}
    (h : (fillPaths c files g).onCache cache = (.ok g', left)) :
    List.Forall₂ (fun n n' => (fillPath c files n).given cache.answers = .ok n')
        g.nodes g'.nodes ∧
      g' = { g with nodes := g'.nodes } ∧ Cache.Serves c files cache left := by
  obtain ⟨hresult, hserves⟩ :=
    Resolving.onCache_eq_given (asksOn_fillPaths c files g)
    (Cache.Serves.refl c files cache)
  rw [h] at hresult hserves
  rw [fillPaths, Resolving.given_bind, Resolving.given_mapM] at hresult
  obtain ⟨nodes, hnodes, hg'⟩ := exists_of_bind_ok hresult.symm
  cases hg'
  exact ⟨forall₂_of_mapM hnodes, rfl, hserves⟩

end

/-! ## What the validation finds at such a path -/

theorem confirms_of_given {c : Config} {files : FileTree} {cache : Cache}
    {n n' : Node} {kind : DependencyKind}
    (hempty : ∀ key, cache.stored? key = none) (hawaits : n.Awaits kind)
    (h : (fillPath c files n).given cache.answers = .ok n') :
    ∃ d, cache.answers ⟨c, files, kind, n.name, none⟩ = .ok d ∧
      (n'.refreshed files c.basePath).Confirms d := by
  obtain ⟨d, hanswer, rfl⟩ := (given_fillPath h).1 kind hawaits
  have hlookUp : lookUp c files kind n.name none = .ok d := by
    rw [Cache.answers_eq, hempty] at hanswer
    exact hanswer
  refine ⟨d, hanswer, ?_⟩
  rw [← systemLookUp_ofText] at hlookUp
  rw [← systemChecked_ofText]
  refine confirms_systemChecked hawaits.2 ?_ hlookUp
  rw [systemLocation_ofText, SystemPath.isText_ofText]

theorem exists_filled_of_analyze {c : Config} {files : FileTree} {now : String}
    {g g' : Graph} {cache left : Cache} {report : AnalysisReport}
    (h : (analyze c files now g).onCache cache = (.ok (g', report), left)) :
    ∃ filled, (fillPaths c files g).onCache cache = (.ok filled, left) ∧
      g' = (validate c files now filled).1 ∧
      report = .ofGraph g' (validate c files now filled).2 := by
  rw [analyze] at h
  obtain ⟨filled, between, hfilled, hrest, -⟩ := Resolving.exists_of_bind h
  cases hrest
  exact ⟨filled, hfilled, rfl, rfl⟩

theorem onCache_analyze {c : Config} {files : FileTree} {now : String}
    {g g' : Graph} {cache left : Cache} {report : AnalysisReport}
    (h : (analyze c files now g).onCache cache = (.ok (g', report), left)) :
    ∃ filled, (fillPaths c files g).onCache cache = (.ok filled, left) ∧
      g'.nodes = filled.nodes.map (Node.refreshed files c.basePath) := by
  obtain ⟨filled, hfilled, rfl, -⟩ := exists_filled_of_analyze h
  exact ⟨filled, hfilled, rfl⟩

/-! ## Agreement -/

def Resolution.Returns (c : Config) (files : FileTree) (cache : Cache)
    (kind : DependencyKind) (name : String) (d : ResolvedDependency) : Prop :=
  ((resolve c files kind name none).onCache cache).1 = .ok d

namespace Node

/-- A node that awaits its path got that of the entry which the resolver
returned, and still returns; every other node is left as it was. -/
structure Attached (c : Config) (files : FileTree) (before after : Cache)
    (n n' : Node) :
    Prop where
  filled : ∀ kind, n.Awaits kind → ∃ d, Returns c files before kind n.name d ∧
    Returns c files after kind n.name d ∧ n.FilledBy c d n'
  kept : (∀ kind, ¬ n.Awaits kind) → n' = n

/-- A node that awaited its path is marked as the entry says which the resolver
returned, and still returns. -/
def Checked (c : Config) (files : FileTree) (before after : Cache)
    (n n' : Node) : Prop :=
  ∀ kind, n.Awaits kind → ∃ d, Returns c files before kind n.name d ∧
    Returns c files after kind n.name d ∧ n'.Confirms d

end Node

theorem returns_of_answer {c : Config} {files : FileTree} {before after : Cache}
    {kind : DependencyKind} {name : String} {d : ResolvedDependency}
    (hserves : Cache.Serves c files before after)
    (h : before.answers ⟨c, files, kind, name, none⟩ = .ok d) :
    Returns c files before kind name d ∧ Returns c files after kind name d := by
  rw [Returns, Returns, onCache_resolve, onCache_resolve]
  exact ⟨h, (hserves _ rfl rfl).trans h⟩

/-- What the resolver and the validation say about a node that awaits its path
comes from one place: the node gets the path of the entry, whatever the cache
held; and where the cache held nothing, the validation finds what the resolver
found.  Below a base that need not be text, the path of any entry leads to where
the entry is; and the validation finds what the resolver found, whatever there
is, exactly where the conventional place is text. -/
theorem analyze_agrees_with_resolver (c : Config) :
    (∀ files n kind cache n' left, n.Awaits kind →
      (fillPath c files n).onCache cache = (.ok n', left) →
      ∃ d, (resolve c files kind n.name none).onCache cache = (.ok d, left) ∧
        n.FilledBy c d n') ∧
    (∀ files g cache g' left,
      (fillPaths c files g).onCache cache = (.ok g', left) →
      List.Forall₂ (Node.Attached c files cache left) g.nodes g'.nodes) ∧
    (∀ files now g cache g' report left,
      (∀ key, Cache.stored? cache key = none) →
      (analyze c files now g).onCache cache = (.ok (g', report), left) →
      List.Forall₂ (Node.Checked c files cache left) g.nodes g'.nodes) ∧
    ∀ base,
      (∀ d, SystemPath.samePlace
        (base.join (.ofText (pathFromSystemBase c base d)))
        (systemLocate c base d) = true) ∧
      ∀ n kind, n.Awaits kind →
        ((∀ files inspect d,
          systemLookUp c base files inspect kind n.name none = .ok d →
            (systemChecked c base inspect n d).Confirms d) ↔
          (systemLocation c base kind n.name).isText = true) := by
  refine ⟨fun files n kind cache n' left => onCache_fillPath, ?_, ?_,
    fun base => ⟨samePlace_pathFromSystemBase c base,
      fun n kind => confirms_systemChecked_iff⟩⟩
  · intro files g cache g' left h
    obtain ⟨hnodes, -, hserves⟩ := onCache_fillPaths h
    refine hnodes.imp fun n n' hgiven =>
      ⟨fun kind hawaits => ?_, (given_fillPath hgiven).2⟩
    obtain ⟨d, hanswer, rfl⟩ := (given_fillPath hgiven).1 kind hawaits
    obtain ⟨hbefore, hafter⟩ := returns_of_answer hserves hanswer
    exact ⟨d, hbefore, hafter, filledBy_pathFromBase c d n⟩
  · intro files now g cache g' report left hempty h
    obtain ⟨filled, hfilled, hnodes⟩ := onCache_analyze h
    obtain ⟨hgivens, -, hserves⟩ := onCache_fillPaths hfilled
    rw [hnodes]
    refine List.forall₂_map_right_iff.mpr
      (hgivens.imp fun n n' hgiven kind hawaits => ?_)
    obtain ⟨d, hanswer, hconfirms⟩ := confirms_of_given hempty hawaits hgiven
    obtain ⟨hbefore, hafter⟩ := returns_of_answer hserves hanswer
    exact ⟨d, hbefore, hafter, hconfirms⟩

/-! ## A registry with one agent of two -/

def oneAgent : FileTree :=
  FileTree.empty.plant ["work", "registry", "extensions", "agents", "x.md"]
    (.newFile (.text ""))

def agentX : Node := .bare "agent-x" .agent "x"

def twoAgents : Graph where
  id := "graph-two"
  specId := "two"
  name := "Two"
  nodes := [agentX, .bare "agent-y" .agent "y", .bare "step-1" .step "Run"]
  edges := []
  metadata := ⟨0, 1, 2, .invalid, none, []⟩

def replacedX : Cache :=
  ⟨[⟨⟨"agent:x", none⟩, some { entryWithBase with physicalPath := "y.md" }⟩], 0,
    1⟩

/-- A base of two bytes, the second of which starts no character. -/
def strayBase : SystemPath := [.char 'r', .stray [0xFF]]

theorem analyze_agrees_with_resolver_twoAgents :
    (∃ n' left,
      (fillPath (.ofBase "registry") oneAgent agentX).onCache replacedX =
        (.ok n', left) ∧ n'.path = some "y.md" ∧
      ∃ d, (resolve (.ofBase "registry") oneAgent .agent "x" none).onCache
        replacedX = (.ok d, left) ∧ agentX.FilledBy (.ofBase "registry") d n') ∧
    (∃ g' left,
      (fillPaths (.ofBase "registry") oneAgent twoAgents).onCache replacedX =
        (.ok g', left) ∧
      g'.nodes.map Node.path =
        [some "y.md", some "extensions/agents/y.md", none] ∧
      List.Forall₂ (Node.Attached (.ofBase "registry") oneAgent replacedX left)
        twoAgents.nodes g'.nodes) ∧
    (∃ g' report left,
      (analyze (.ofBase "registry") oneAgent "now" twoAgents).onCache .empty =
        (.ok (g', report), left) ∧
      g'.nodes.map Node.validated = [true, false, true] ∧
      List.Forall₂ (Node.Checked (.ofBase "registry") oneAgent .empty left)
        twoAgents.nodes g'.nodes) ∧
    (∀ files inspect d,
      systemLookUp (.ofBase "registry") (.ofText "r") files inspect .agent "x"
        none = .ok d →
      (systemChecked (.ofBase "registry") (.ofText "r") inspect agentX
        d).Confirms d) ∧
    ¬ ∀ files inspect d,
      systemLookUp (.ofBase "registry") strayBase files inspect .agent "x"
        none = .ok d →
      (systemChecked (.ofBase "registry") strayBase inspect agentX
        d).Confirms d := by
  obtain ⟨hnode, hgraph, hanalysis, hbase⟩ :=
    analyze_agrees_with_resolver (.ofBase "registry")
  refine ⟨?_, ?_, ?_,
    ((hbase (.ofText "r")).2 agentX .agent ⟨rfl, rfl⟩).mpr (by decide),
    fun hall => ?_⟩
  · have hpath :
        ((fillPath (.ofBase "registry") oneAgent agentX).onCache
          replacedX).1.map Node.path = .ok (some "y.md") := by
      decide +kernel
    rcases hrun :
        (fillPath (.ofBase "registry") oneAgent agentX).onCache replacedX with
      ⟨cause | n', left⟩
    · rw [hrun] at hpath
      cases hpath
    · rw [hrun] at hpath
      exact ⟨n', left, rfl, Except.ok.inj hpath,
        hnode _ _ _ _ _ _ ⟨rfl, rfl⟩ hrun⟩
  · have hpaths : ((fillPaths (.ofBase "registry") oneAgent twoAgents).onCache
        replacedX).1.map (fun g' => g'.nodes.map Node.path) =
          .ok [some "y.md", some "extensions/agents/y.md", none] := by
      decide +kernel
    rcases hrun :
        (fillPaths (.ofBase "registry") oneAgent twoAgents).onCache
          replacedX with
      ⟨cause | g', left⟩
    · rw [hrun] at hpaths
      cases hpaths
    · rw [hrun] at hpaths
      exact ⟨g', left, rfl, Except.ok.inj hpaths, hgraph _ _ _ _ _ hrun⟩
  · have hmarks :
        ((analyze (.ofBase "registry") oneAgent "now" twoAgents).onCache
          .empty).1.map (fun result => result.1.nodes.map Node.validated) =
          .ok [true, false, true] := by
      decide +kernel
    rcases hrun :
        (analyze (.ofBase "registry") oneAgent "now" twoAgents).onCache
          .empty with
      ⟨cause | ⟨g', report⟩, left⟩
    · rw [hrun] at hmarks
      cases hmarks
    · rw [hrun] at hmarks
      exact ⟨g', report, left, rfl, Except.ok.inj hmarks,
        hanalysis _ _ _ _ _ _ _ (fun _ => rfl) hrun⟩
  · have htext := ((hbase strayBase).2 agentX .agent ⟨rfl, rfl⟩).mp hall
    revert htext
    decide

def entryBelowStrayBase : ResolvedDependency where
  id := "agent:x"
  kind := .agent
  name := "x"
  logicalReference := "agent:x"
  physicalPath := "r\uFFFD/extensions/agents/x.md"
  resolved := true
  error := none
  errorCode := none
  presence := ⟨true, true, none⟩

def onlyAgentBelowStrayBase : Inspection :=
  onlyFileAt (systemLocation .standard strayBase .agent "x")

theorem checked_elsewhere :
    systemLookUp .standard strayBase .empty onlyAgentBelowStrayBase .agent "x"
        none = .ok entryBelowStrayBase ∧
      (systemChecked .standard strayBase onlyAgentBelowStrayBase agentX
        entryBelowStrayBase).path = some entryBelowStrayBase.physicalPath ∧
      (systemChecked .standard strayBase onlyAgentBelowStrayBase agentX
        entryBelowStrayBase).issues.map Issue.code =
          [IssueCode.pathNotFound] ∧
      ¬ (systemChecked .standard strayBase onlyAgentBelowStrayBase agentX
        entryBelowStrayBase).Confirms entryBelowStrayBase := by
  refine ⟨by decide +kernel, by decide +kernel, by decide +kernel,
    fun hconfirms => ?_⟩
  have hvalidated := hconfirms.validated_iff.mpr rfl
  revert hvalidated
  decide +kernel

end Workflows
