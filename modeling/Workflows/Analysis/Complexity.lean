import Workflows.Graph.Basic
import Workflows.Json.Basic

/-!
The complexity of a graph as a score between 0 and 100, and the level that the
score falls in.
-/

namespace Workflows

inductive ComplexityLevel where
  | simple
  | moderate
  | complex
  | veryComplex
  deriving DecidableEq, Repr

namespace ComplexityLevel

def name : ComplexityLevel → String
  | simple => "simple"
  | moderate => "moderate"
  | complex => "complex"
  | veryComplex => "very-complex"

def ofScore (score : Nat) : ComplexityLevel :=
  if score < 25 then simple
  else if score < 50 then moderate
  else if score < 75 then complex
  else veryComplex

end ComplexityLevel

structure Complexity where
  cyclomatic : Nat
  nestingDepth : Nat
  fanIn : Nat
  fanOut : Nat
  overall : Nat
  level : ComplexityLevel
  deriving DecidableEq, Repr

namespace Graph

def independentPaths (g : Graph) : Nat :=
  max 1 (g.edges.length + 2 - g.nodes.length)

/-- The levels of a balanced tree with as many inner nodes as the graph has
steps; at least one. -/
def nestingDepth (g : Graph) : Nat :=
  let steps := g.nodeCount .step
  if steps = 0 then 1 else Nat.log2 steps + 1

def fanIn (g : Graph) : Nat :=
  g.edges.countP fun e => (g.idsOf .finish).contains e.target

def fanOut (g : Graph) : Nat :=
  g.edges.countP fun e => (g.idsOf .start).contains e.source

def overallComplexity (g : Graph) : Nat :=
  min 100 (g.independentPaths * 10 + g.nestingDepth * 15 + g.fanIn * 5 +
    g.fanOut * 5)

end Graph

namespace Complexity

def ofGraph (g : Graph) : Complexity where
  cyclomatic := g.independentPaths
  nestingDepth := g.nestingDepth
  fanIn := g.fanIn
  fanOut := g.fanOut
  overall := g.overallComplexity
  level := .ofScore g.overallComplexity

def toJson (c : Complexity) : Json :=
  .obj [("cyclomaticComplexity", .int c.cyclomatic),
    ("nestingDepth", .int c.nestingDepth), ("fanIn", .int c.fanIn),
    ("fanOut", .int c.fanOut), ("overallComplexity", .int c.overall),
    ("complexityLevel", .str c.level.name)]

end Complexity

end Workflows
