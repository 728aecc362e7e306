import Workflows.Analysis.Validation
import Workflows.Files.SystemPath
import Workflows.Resolution.Resolver

/-!
Resolution and validation below a base that need not be text.  The base of the
configuration gives way to a path of the system, and what is found at such a
path comes from a function.  The path of an entry is stored as text, from which
its place is read again.
-/

namespace Workflows

abbrev Inspection := SystemPath → Except ResolutionError PathReport

namespace Resolution

open SystemPath

def systemLocation (c : Config) (base : SystemPath) (kind : DependencyKind)
    (name : String) : SystemPath :=
  join base (ofText (c.pathOf kind name))

/-- The path that a dependency is known by, and where that is. -/
def systemPlaces (c : Config) (base : SystemPath) (kind : DependencyKind)
    (name : String) (path : Option String) : String × SystemPath :=
  match path with
  | some path => (path, join base (ofText path))
  | none =>
      ((systemLocation c base kind name).shown,
        systemLocation c base kind name)

def systemLookUp (c : Config) (base : SystemPath) (files : FileTree)
    (inspect : Inspection) (kind : DependencyKind) (name : String)
    (path : Option String) : Except ResolutionError ResolvedDependency := do
  let (physicalPath, location) := systemPlaces c base kind name path
  return entryOf files kind name physicalPath (← inspect location)

def isSystemConventional (c : Config) (base : SystemPath)
    (d : ResolvedDependency) : Bool :=
  samePlace (ofText d.physicalPath) (systemLocation c base d.kind d.name)

def systemLocate (c : Config) (base : SystemPath) (d : ResolvedDependency) :
    SystemPath :=
  if isSystemConventional c base d then systemLocation c base d.kind d.name
  else join base (ofText d.physicalPath)

def pathFromSystemBase (c : Config) (base : SystemPath)
    (d : ResolvedDependency) : String :=
  if isSystemConventional c base d then c.pathOf d.kind d.name
  else d.physicalPath

/-- The node with the path of the entry, and the marks that the validation gives
it for that path. -/
def systemChecked (c : Config) (base : SystemPath) (inspect : Inspection)
    (n : Node) (d : ResolvedDependency) : Node :=
  let path := pathFromSystemBase c base d
  let n := { n with path := some path }
  n.marked (inspectionIssues n path (inspect (join base (ofText path))))

end Resolution

end Workflows
