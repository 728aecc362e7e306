import Workflows.Graph.Cycle
import Workflows.Resolution.Resolver

/-!
References between workflow documents.  A walk follows them level by level from
a workflow and loads the document of each key once; cycles are found among the
references that it collected.
-/

namespace Workflows.Resolution

inductive InvalidDocument where
  | unreadable
  | unparsable (cause : DocumentError)
  deriving DecidableEq, Repr

def InvalidDocument.message (id : String) : InvalidDocument → String
  | unreadable =>
      "Workflow reference '" ++ id ++ "' does not point to a readable document"
  | unparsable cause =>
      "Workflow document for '" ++ id ++ "' cannot be parsed: " ++ cause.message

def documentOf (c : Config) (files : FileTree) (d : ResolvedDependency) :
    Except ResolutionError (Except InvalidDocument Workflow) := do
  let report ← files.inspect (locate c d)
  if report.kind != .file || !report.accessible then return .error .unreadable
  else
    let text ← files.document report.path
    return (Document.parse text none).mapError .unparsable

def workflowsOf (w : Workflow) : List Dependency :=
  w.dependencies.filter fun d => d.kind == .workflow

def referencesOf (w : Workflow) : List String :=
  (workflowsOf w).map Dependency.key

/-- What a walk knows: the references of each document loaded, and all keys
met. -/
structure Walk where
  references : List (String × List String)
  expanded : List String
  deriving DecidableEq, Repr

namespace Walk

def start (w : Workflow) : Walk :=
  let root := Reference.key .workflow w.name
  ⟨[(root, referencesOf w)], [root]⟩

/-- The dependencies with a key that is not met before, and all keys met. -/
def fresh (expanded : List String) :
    List Dependency → List Dependency × List String
  | [] => ([], expanded)
  | d :: rest =>
      if d.key ∈ expanded then fresh expanded rest
      else
        let (ds, expanded) := fresh (d.key :: expanded) rest
        (d :: ds, expanded)

def load (c : Config) (files : FileTree) (d : Dependency) :
    Resolving (String × Option Workflow) := do
  let resolved ← resolveDependency c files d
  if resolved.resolved then
    match ← Resolving.ofExcept (documentOf c files resolved) with
    | .ok w => return (d.key, some w)
    | .error _ => return (d.key, none)
  else return (d.key, none)

/-- Follows the references of a level, and of the levels after it up to a
depth. -/
def descend (c : Config) (files : FileTree) :
    (depth : Nat) → Walk → List Dependency → Resolving Walk
  | 0, walk, _ => return walk
  | depth + 1, walk, frontier =>
      if frontier.isEmpty then return walk
      else do
        let (pending, expanded) := fresh walk.expanded frontier
        let loaded ← pending.mapM (load c files)
        let documents := loaded.filterMap fun (key, document) =>
          document.map (key, ·)
        let references := documents.map fun (key, w) => (key, referencesOf w)
        descend c files depth ⟨walk.references ++ references, expanded⟩
          (documents.flatMap fun (_, w) => workflowsOf w)

def successors (walk : Walk) (key : String) : List String :=
  (walk.references.lookup key).getD []

def keys (walk : Walk) : List String :=
  distinct (walk.references.map Prod.fst ++ walk.references.flatMap Prod.snd)

end Walk

def walkFrom (c : Config) (files : FileTree) (w : Workflow) : Resolving Walk :=
  Walk.descend c files c.maxDepth (.start w) (workflowsOf w)

def workflowCycles (c : Config) (files : FileTree) (w : Workflow) :
    Resolving (List (List String)) := do
  let walk ← walkFrom c files w
  return Cycle.find walk.successors walk.keys [Reference.key .workflow w.name]

end Workflows.Resolution
