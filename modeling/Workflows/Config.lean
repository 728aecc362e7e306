import Workflows.Files.Path
import Workflows.Json.Decode
import Workflows.Json.Reader
import Workflows.Workflow.Basic

/-!
Configuration: the base directory, the conventional places of agents, workflows
and resources below it, and the limits on work done at once and on the depth of
a walk over documents.

A path of a file system need not be text, and the path of an entry is stored as
text, with what is no text in it replaced.  Here every path is text, the base
path too, so the stored text of a path is the path itself.  Base paths that are
no text are taken up where the stored text of a place is read again, with paths
as a system has them.
-/

namespace Workflows

structure Config where
  basePath : String
  concurrency : Nat
  maxDepth : Nat
  agentsDirectory : String
  workflowsDirectory : String
  deriving DecidableEq, Repr

namespace Config

open Json

def standard : Config :=
  ⟨".", 8, 8, "extensions/agents", "extensions/workflows"⟩

def ofBase (basePath : String) : Config :=
  { standard with basePath := basePath }

def mostWorkers : Nat := 64

def workers (c : Config) : Nat := max 1 (min c.concurrency mostWorkers)

/-- Where a dependency is by convention, seen from the base. -/
def pathOf (c : Config) (kind : DependencyKind) (name : String) : String :=
  match kind with
  | .agent => Path.join c.agentsDirectory (name ++ ".md")
  | .workflow => Path.join (Path.join c.workflowsDirectory name) "README.md"
  | .resource => Path.join c.workflowsDirectory name

def underBase (c : Config) (path : String) : String := Path.join c.basePath path

def locationOf (c : Config) (kind : DependencyKind) (name : String) : String :=
  c.underBase (c.pathOf kind name)

def toJson (c : Config) : Json :=
  .obj [("basePath", .str c.basePath), ("concurrency", .int c.concurrency),
    ("maxDepth", .int c.maxDepth), ("agentsDir", .str c.agentsDirectory),
    ("workflowsDir", .str c.workflowsDirectory)]

def ofJson? (j : Json) : Option Config := do
  match ← fields? ["basePath", "concurrency", "maxDepth",
    "agentsDir", "workflowsDir"] j with
  | [basePath, concurrency, maxDepth, agentsDirectory, workflowsDirectory] =>
      return {
        basePath := ← defaultField standard.basePath asString? basePath
        concurrency := ← defaultField standard.concurrency asCount? concurrency
        maxDepth := ← defaultField standard.maxDepth asCount? maxDepth
        agentsDirectory :=
          ← defaultField standard.agentsDirectory asString? agentsDirectory
        workflowsDirectory :=
          ← defaultField standard.workflowsDirectory asString?
            workflowsDirectory }
  | _ => none

def parse? (json : String) : Option Config := (Json.parse? json).bind ofJson?

end Config

end Workflows
