import Workflows.Analysis.Complexity
import Workflows.Analysis.Metrics
import Workflows.Graph.Path

/-!
What a graph shows without looking at any file.
-/

namespace Workflows

def ExecutionPath.toJson (p : ExecutionPath) : Json :=
  .obj [("nodes", strings p.nodes), ("stepCount", .int p.stepCount)]

def pathsToJson (paths : List ExecutionPath) : Json :=
  .arr (paths.map ExecutionPath.toJson)

structure GraphStructure where
  metrics : Metrics
  complexity : Complexity
  executionPaths : List ExecutionPath
  deriving DecidableEq, Repr

namespace GraphStructure

def ofGraph (g : Graph) : GraphStructure :=
  ⟨.ofGraph g, .ofGraph g, g.executionPaths⟩

def toJson (s : GraphStructure) : Json :=
  .obj [("metrics", s.metrics.toJson), ("complexity", s.complexity.toJson),
    ("executionPaths", pathsToJson s.executionPaths)]

end GraphStructure

end Workflows
