import Workflows.Resolution.Advice
import Workflows.Resolution.Walk

/-!
Resolving all that a workflow depends on: its own dependencies, those of the
workflows that it depends on, and the conflicts and cycles among them.
-/

namespace Workflows.Resolution

def firstReferences : List ResolvedDependency → List ResolvedDependency
  | [] => []
  | d :: rest =>
      d :: (firstReferences rest).filter fun e =>
        e.logicalReference != d.logicalReference

def resolvedWorkflows (ds : List ResolvedDependency) :
    List ResolvedDependency :=
  firstReferences (ds.filter fun d => d.kind == .workflow && d.resolved)

def loadAll (c : Config) (files : FileTree) :
    List ResolvedDependency →
      Except ResolutionError
        (List (ResolvedDependency × Except InvalidDocument Workflow))
  | [] => .ok []
  | d :: rest => do
      let document ← documentOf c files d
      return (d, document) :: (← loadAll c files rest)

def invalidConflict (d : ResolvedDependency) (cause : InvalidDocument) :
    Conflict :=
  .ofKind d.id .invalidDocument (cause.message d.id) [d.physicalPath]

abbrev Nested := List (String × List ResolvedDependency)

/-- Resolves what each document depends on; a document of no use makes a
conflict. -/
def nestedOf (c : Config) (files : FileTree) :
    List (ResolvedDependency × Except InvalidDocument Workflow) →
      Resolving (Nested × List Conflict)
  | [] => return ([], [])
  | (d, .ok child) :: rest => do
      let resolved ← resolveEach c files child.dependencies
      let (nested, conflicts) ← nestedOf c files rest
      return ((d.logicalReference, resolved) :: nested, conflicts)
  | (d, .error cause) :: rest => do
      let (nested, conflicts) ← nestedOf c files rest
      return (nested, invalidConflict d cause :: conflicts)

def resolveNested (c : Config) (files : FileTree)
    (ds : List ResolvedDependency) :
    Resolving (Nested × List Conflict) := do
  let loaded ← Resolving.ofExcept (loadAll c files (resolvedWorkflows ds))
  nestedOf c files loaded

/-- A cycle stands under its second key. -/
def circularConflict (cycle : List String) : Conflict :=
  .ofKind ((cycle[1]? <|> cycle.head?).getD "") .circular
    ("Circular workflow reference: " ++ chain cycle) cycle

def resolveWorkflow (c : Config) (files : FileTree) (w : Workflow) :
    Resolving ResolutionResult := do
  let dependencies ← resolveEach c files w.dependencies
  let missing := dependencies.filter fun d => !d.resolved
  let (nested, invalid) ← resolveNested c files dependencies
  let cycles ← workflowCycles c files w
  let conflicts :=
    pathConflicts dependencies ++ invalid ++ cycles.map circularConflict
  return {
    success := missing.isEmpty && conflicts.isEmpty
    dependencies := dependencies
    conflicts := conflicts
    missing := missing
    cycles := cycles
    nested := nested
    recommendations := recommendations missing conflicts cycles }

end Workflows.Resolution
