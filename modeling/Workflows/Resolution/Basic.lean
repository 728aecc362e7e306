import Workflows.Workflow.Codec

/-!
Resolved dependencies, the conflicts between them, and decisions about them.
-/

namespace Workflows

open Json

structure Presence where
  exist : Bool
  accessible : Bool
  version : Option String
  deriving DecidableEq, Repr

/-- A dependency with the path that it was resolved to.  The path of a
dependency in its conventional place starts with the base; any other is as it
was given. -/
structure ResolvedDependency where
  id : String
  kind : DependencyKind
  name : String
  logicalReference : String
  physicalPath : String
  resolved : Bool
  error : Option String
  errorCode : Option String
  presence : Presence
  deriving DecidableEq, Repr

namespace ResolvedDependency

def notFoundCode : String := "DEPENDENCY_NOT_FOUND"

def notAccessibleCode : String := "DEPENDENCY_NOT_ACCESSIBLE"

def skippedCode : String := "DEPENDENCY_SKIPPED"

def fail (d : ResolvedDependency) (code message : String) :
    ResolvedDependency :=
  { d with error := some message, errorCode := some code }

def withoutError (d : ResolvedDependency) : ResolvedDependency :=
  { d with error := none, errorCode := none }

end ResolvedDependency

inductive ConflictKind where
  | pathConflict
  | circular
  | invalidDocument
  deriving DecidableEq, Repr

namespace ConflictKind

def name : ConflictKind → String
  | pathConflict => "path-conflict"
  | circular => "circular"
  | invalidDocument => "invalid-document"

def code : ConflictKind → String
  | pathConflict => "PATH_CONFLICT"
  | circular => "CIRCULAR_DEPENDENCY"
  | invalidDocument => "INVALID_DOCUMENT"

def all : List ConflictKind := [pathConflict, circular, invalidDocument]

end ConflictKind

structure Conflict where
  dependencyId : String
  kind : ConflictKind
  code : String
  message : String
  details : List String
  deriving DecidableEq, Repr

def Conflict.ofKind (dependencyId : String) (kind : ConflictKind)
    (message : String) (details : List String) : Conflict :=
  ⟨dependencyId, kind, kind.code, message, details⟩

inductive DecisionKind where
  | useExisting
  | createPlaceholder
  | skip
  | replace
  deriving DecidableEq, Repr

namespace DecisionKind

def name : DecisionKind → String
  | useExisting => "use-existing"
  | createPlaceholder => "create-placeholder"
  | skip => "skip"
  | replace => "replace"

def all : List DecisionKind := [useExisting, createPlaceholder, skip, replace]

end DecisionKind

structure Decision where
  dependencyId : String
  action : DecisionKind
  newVersion : Option String
  replacementPath : Option String
  deriving DecidableEq, Repr

/-- The outcome for a whole workflow.  Nested dependencies stand under the
reference of the workflow that declares them. -/
structure ResolutionResult where
  success : Bool
  dependencies : List ResolvedDependency
  conflicts : List Conflict
  missing : List ResolvedDependency
  cycles : List (List String)
  nested : List (String × List ResolvedDependency)
  recommendations : List String
  deriving DecidableEq, Repr

def ResolutionResult.conflictsOfKind (r : ResolutionResult)
    (kind : ConflictKind) : List Conflict :=
  r.conflicts.filter fun c => c.kind == kind

end Workflows
