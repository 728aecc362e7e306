import Workflows.Config
import Workflows.Document.Format
import Workflows.Files.Inspection
import Workflows.Resolution.Cache

/-!
From the name of a dependency to its place in the file tree.
-/

namespace Workflows

namespace Resolution

def versionAt? (files : FileTree) (path : String) : Option String :=
  if Path.extension? path.toList = some ['m', 'd'] then
    match files.read path with
    | .ok text =>
        match Document.parse text (some .markdown) with
        | .ok w => w.version
        | .error _ => none
    | .error _ => none
  else none

/-- The path that a dependency is known by, and where that is. -/
def placesOf (c : Config) (kind : DependencyKind) (name : String)
    (path : Option String) :
    String × String :=
  match path with
  | some path => (path, c.underBase path)
  | none => (c.locationOf kind name, c.locationOf kind name)

def entryOf (files : FileTree) (kind : DependencyKind)
    (name physicalPath : String) (report : PathReport) : ResolvedDependency :=
  let id := Reference.key kind name
  let isReadable := report.isUsable && report.kind == .file
  let entry : ResolvedDependency := {
    id := id
    kind := kind
    name := name
    logicalReference := id
    physicalPath := physicalPath
    resolved := report.isUsable
    error := none
    errorCode := none
    presence := {
      exist := report.exist
      accessible := report.accessible
      version := if isReadable then versionAt? files report.path else none } }
  if !report.exist then
    entry.fail ResolvedDependency.notFoundCode
      (kind.name ++ " '" ++ name ++ "' not found at " ++ report.path)
  else if !report.accessible then
    entry.fail ResolvedDependency.notAccessibleCode
      (kind.name ++ " '" ++ name ++ "' is not accessible at " ++ report.path)
  else entry

def lookUp (c : Config) (files : FileTree) (kind : DependencyKind)
    (name : String) (path : Option String) :
    Except ResolutionError ResolvedDependency := do
  let (physicalPath, location) := placesOf c kind name path
  return entryOf files kind name physicalPath (← files.inspect location)

end Resolution

structure Request where
  config : Config
  files : FileTree
  kind : DependencyKind
  name : String
  path : Option String
  deriving Repr

namespace Request

def key (r : Request) : RequestKey := ⟨Reference.key r.kind r.name, r.path⟩

def lookUp (r : Request) : Except ResolutionError ResolvedDependency :=
  Resolution.lookUp r.config r.files r.kind r.name r.path

def answer (r : Request) (cache : Cache) :
    Except ResolutionError ResolvedDependency × Cache :=
  cache.fetch r.key fun _ => r.lookUp

end Request

/-- Work that reaches the cache by requests alone.  It is done, or it asks for a
dependency and goes on from the answer; a request that fails ends it. -/
inductive Resolving (α : Type) where
  | done (result : Except ResolutionError α)
  | ask (request : Request) (onward : ResolvedDependency → Resolving α)

namespace Resolving

variable {α β : Type}

def ofExcept (result : Except ResolutionError α) : Resolving α := done result

def bind : Resolving α → (α → Resolving β) → Resolving β
  | done (.ok value), next => next value
  | done (.error cause), _ => done (.error cause)
  | ask request onward, next => ask request fun d => (onward d).bind next

instance : Monad Resolving where
  pure value := done (.ok value)
  bind := bind

/-- Does the work on a cache; what was done to the cache before a failure
stays. -/
def onCache : Resolving α → Cache → Except ResolutionError α × Cache
  | done result, cache => (result, cache)
  | ask request onward, cache =>
      match request.answer cache with
      | (.ok d, cache) => (onward d).onCache cache
      | (.error cause, cache) => (.error cause, cache)

def run (work : Resolving α) : StateM Cache (Except ResolutionError α) :=
  work.onCache

end Resolving

namespace Resolution

def resolve (c : Config) (files : FileTree) (kind : DependencyKind)
    (name : String) (path : Option String) : Resolving ResolvedDependency :=
  .ask ⟨c, files, kind, name, path⟩ pure

def resolveDependency (c : Config) (files : FileTree) (d : Dependency) :
    Resolving ResolvedDependency :=
  resolve c files d.kind d.name d.path

def resolveEach (c : Config) (files : FileTree) (ds : List Dependency) :
    Resolving (List ResolvedDependency) :=
  ds.mapM (resolveDependency c files)

/-- The path of the entry is that of its conventional place. -/
def isConventional (c : Config) (d : ResolvedDependency) : Bool :=
  Path.samePlace d.physicalPath (c.locationOf d.kind d.name)

/-- Where an entry is.  A conventional path starts with the base already. -/
def locate (c : Config) (d : ResolvedDependency) : String :=
  if isConventional c d then c.locationOf d.kind d.name
  else c.underBase d.physicalPath

def pathFromBase (c : Config) (d : ResolvedDependency) : String :=
  if isConventional c d then c.pathOf d.kind d.name else d.physicalPath

end Resolution

end Workflows
