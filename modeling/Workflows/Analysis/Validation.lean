import Workflows.Analysis.Verdict
import Workflows.Files.Inspection
import Workflows.Graph.Cycle

/-!
Validation of a graph against the file tree: every path of a node, both ends of
every edge, and the cycles that the graph records.  The result is a graph with
fresh marks and the verdict on it.
-/

namespace Workflows

namespace IssueCode

def pathNotFound : String := "PATH_NOT_FOUND"

def pathNotAccessible : String := "PATH_NOT_ACCESSIBLE"

def pathCheckFailed : String := "PATH_CHECK_FAILED"

def missingPath : String := "MISSING_CC_PATH"

def circularDependency : String := "CIRCULAR_DEPENDENCY"

def edgeEndpointMissing : String := "EDGE_ENDPOINT_MISSING"

end IssueCode

/-- The findings about a path of the node, by what an inspection found there. -/
def inspectionIssues (n : Node) (path : String)
    (inspected : Except ResolutionError PathReport) : List Issue :=
  let subject := n.kind.name ++ " '" ++ n.name ++ "'"
  match inspected with
  | .ok report =>
      if !report.exist then
        [(Issue.error IssueCode.pathNotFound
          (subject ++ " not found at " ++ report.path)).located path]
      else if !report.accessible then
        [(Issue.error IssueCode.pathNotAccessible
          (subject ++ " is not accessible at " ++ report.path)).located path]
      else []
  | .error cause =>
      [(Issue.error IssueCode.pathCheckFailed cause.message).located path]

def pathIssues (files : FileTree) (base : String) (n : Node) (path : String) :
    List Issue :=
  inspectionIssues n path (files.inspect (Path.join base path))

def Node.findings (files : FileTree) (base : String) (n : Node) : List Issue :=
  match n.path, n.kind.dependency? with
  | some path, _ => pathIssues files base n path
  | none, some _ =>
      [(Issue.warning IssueCode.missingPath
        (n.kind.name ++ " '" ++ n.name ++ "' has no resolved path")).located
        n.id]
  | none, none => []

def Node.marked (n : Node) (found : List Issue) : Node :=
  { n with validated := !found.any Issue.isError, issues := found }

def Node.refreshed (files : FileTree) (base : String) (n : Node) : Node :=
  n.marked (n.findings files base)

namespace Graph

def hasEnds (g : Graph) (e : Edge) : Bool :=
  g.hasNode e.source && g.hasNode e.target

/-- The finding about an edge with an unknown end; the source is looked at
first. -/
def edgeFinding? (g : Graph) (e : Edge) : Option Issue :=
  if g.hasEnds e then none
  else
    let unknown := if g.hasNode e.source then e.target else e.source
    some ((Issue.error IssueCode.edgeEndpointMissing
      ("Edge '" ++ e.id ++ "' references unknown node '" ++
        unknown ++ "'")).located e.id)

/-- Where one of the ends has a path: whether both are valid. -/
def pathResolved? (nodes : List Node) (e : Edge) : Option Bool :=
  match nodes.find? (fun n => n.id == e.source),
    nodes.find? (fun n => n.id == e.target) with
  | some source, some target =>
      if source.path.isSome || target.path.isSome then
        some (source.validated && target.validated)
      else none
  | _, _ => none

def cycleFinding (cycle : List String) : Issue :=
  (Issue.warning IssueCode.circularDependency
    ("Circular dependency detected: " ++ " -> ".intercalate cycle)).located
    (cycle.head?.getD "")

def findings (g : Graph) (files : FileTree) (base : String) : List Issue :=
  g.nodes.flatMap (Node.findings files base) ++
    g.edges.filterMap g.edgeFinding? ++
    g.metadata.cycles.map cycleFinding

def validate (g : Graph) (files : FileTree) (base now : String) :
    Graph × Verdict :=
  let nodes := g.nodes.map (Node.refreshed files base)
  let edges := g.edges.map fun e =>
    { e with validated := g.hasEnds e, pathResolved := pathResolved? nodes e }
  let verdict := Verdict.ofIssues (g.findings files base)
  ({ g with
      nodes := nodes
      edges := edges
      metadata :=
        { g.metadata with
          status := verdict.status, lastValidated := some now } },
    verdict)

end Graph

end Workflows
