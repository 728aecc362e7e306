import Workflows.Failure
import Workflows.Text.Blank
import Workflows.Workflow.Basic

/-!
Logical references: a kind of dependency, a colon and a name.  Kinds are read
without regard to case and surrounding blanks, in the singular or plural.
-/

namespace Workflows

def lowered (s : String) : String := String.ofList (s.toList.map Char.toLower)

def DependencyKind.read (s : String) : Except UnknownName DependencyKind :=
  let name := lowered (Text.trimmed s)
  if name = "agent" ∨ name = "agents" then .ok .agent
  else if name = "workflow" ∨ name = "workflows" then .ok .workflow
  else if name = "resource" ∨ name = "resources" then .ok .resource
  else .error ⟨"dependency type", name⟩

namespace Reference

def splitColon? : List Char → Option (List Char × List Char)
  | [] => none
  | ':' :: rest => some ([], rest)
  | c :: rest =>
      (splitColon? rest).map fun (before, after) => (c :: before, after)

def key (kind : DependencyKind) (name : String) : String :=
  kind.name ++ ":" ++ name

/-- The kind and the trimmed name of a reference; a blank name refers to
nothing. -/
def parse? (s : String) : Option (DependencyKind × String) := do
  let (kind, name) ← splitColon? s.toList
  let name := String.ofList (Text.trim name)
  if name.isEmpty then none
  else
    match DependencyKind.read (String.ofList kind) with
    | .ok kind => some (kind, name)
    | .error _ => none

end Reference

def Dependency.key (d : Dependency) : String := Reference.key d.kind d.name

end Workflows
