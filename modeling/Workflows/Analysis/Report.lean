import Workflows.Analysis.Structure
import Workflows.Analysis.Validation
import Workflows.Resolution.Resolver

/-!
Analysis of a graph: paths are attached to the nodes that stand for
dependencies, the graph is validated and measured, and advice is drawn from
both.
-/

namespace Workflows

structure AnalysisReport where
  verdict : Verdict
  structural : GraphStructure
  recommendations : List String
  deriving DecidableEq, Repr

namespace AnalysisReport

def numberWith (issues : List Issue) (code : String) : Nat :=
  issues.countP fun i => i.code == code

def counted (n : Nat) (before after : String) : List String :=
  if n = 0 then [] else [before ++ toString n ++ after]

def troubles (v : Verdict) (s : GraphStructure) : List String :=
  counted v.errors.length "Fix "
    " validation error(s) before running this workflow." ++
    counted (numberWith v.errors IssueCode.pathNotFound) "Create or re-point "
      " missing dependency file(s)." ++
    counted (numberWith v.warnings IssueCode.circularDependency) "Break "
      " circular dependency chain(s)." ++
    (if s.metrics.isolated.isEmpty then []
      else ["Connect or remove isolated nodes: " ++
        ", ".intercalate s.metrics.isolated ++ "."]) ++
    (if s.complexity.level = .veryComplex then
      ["Consider splitting this workflow into sub-workflows (complexity " ++
        toString s.complexity.overall ++ ")."]
      else [])

def advise (v : Verdict) (s : GraphStructure) : List String :=
  match troubles v s with
  | [] => ["Workflow graph is ready to run."]
  | sentences => sentences

def ofGraph (g : Graph) (v : Verdict) : AnalysisReport :=
  let s := GraphStructure.ofGraph g
  ⟨v, s, advise v s⟩

def issues (r : AnalysisReport) : List Issue := r.verdict.issues

def toJson (r : AnalysisReport) : Json :=
  .obj [("validation", r.verdict.toJson),
    ("metrics", r.structural.metrics.toJson),
    ("complexity", r.structural.complexity.toJson),
    ("executionPaths", pathsToJson r.structural.executionPaths),
    ("recommendations", strings r.recommendations),
    ("issues", issuesToJson r.issues)]

end AnalysisReport

namespace Analysis

open Resolution

/-- The node with the path of the dependency that it stands for; a path that it
has is kept. -/
def fillPath (c : Config) (files : FileTree) (n : Node) : Resolving Node :=
  match n.path, n.kind.dependency? with
  | none, some kind => do
      let resolved ← resolve c files kind n.name none
      return { n with path := some (pathFromBase c resolved) }
  | _, _ => return n

def fillPaths (c : Config) (files : FileTree) (g : Graph) :
    Resolving Graph := do
  let nodes ← g.nodes.mapM (fillPath c files)
  return { g with nodes := nodes }

def validate (c : Config) (files : FileTree) (now : String) (g : Graph) :
    Graph × Verdict :=
  g.validate files c.basePath now

def analyze (c : Config) (files : FileTree) (now : String) (g : Graph) :
    Resolving (Graph × AnalysisReport) := do
  let attached ← fillPaths c files g
  let (validated, verdict) := validate c files now attached
  return (validated, .ofGraph validated verdict)

end Analysis

end Workflows
