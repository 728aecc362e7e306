import Workflows.Graph.Adjacency
import Workflows.Resolution.Basic

/-!
Conflicts between the paths of dependencies, and advice on what is missing or in
conflict.
-/

namespace Workflows.Resolution

def pathsOf (ds : List ResolvedDependency) (id : String) : List String :=
  distinct ((ds.filter fun d => d.id == id).map ResolvedDependency.physicalPath)

/-- One conflict for each entry of the id, if the entries resolve to several
paths. -/
def pathConflictsOf (ds : List ResolvedDependency) (id : String) :
    List Conflict :=
  let paths := pathsOf ds id
  if paths.length < 2 then []
  else
    List.replicate (ds.countP fun d => d.id == id)
      (.ofKind id .pathConflict
        ("'" ++ id ++ "' resolves to " ++ toString paths.length ++
          " different paths") paths)

def pathConflicts (ds : List ResolvedDependency) : List Conflict :=
  (distinct (ds.map ResolvedDependency.id)).flatMap (pathConflictsOf ds)

def plural (n : Nat) (one many : String) : String := if n = 1 then one else many

/-- A row of equal neighbours reduced to one of them. -/
def squeeze : List String → List String
  | a :: b :: rest =>
      if a = b then squeeze (b :: rest) else a :: squeeze (b :: rest)
  | as => as

def idsOf (conflicts : List Conflict) (kind : ConflictKind) : List String :=
  (conflicts.filter fun c => c.kind == kind).map Conflict.dependencyId

def chain (cycle : List String) : String := " -> ".intercalate cycle

def sentence (verb : String) (items : List String)
    (one many separator : String) : List String :=
  if items.isEmpty then []
  else
    [verb ++ " " ++ toString items.length ++ " " ++
      plural items.length one many ++ ": " ++
      separator.intercalate items ++ "."]

/-- A sentence for each kind of trouble, or a single one where there is no
trouble. -/
def recommendations (missing : List ResolvedDependency)
    (conflicts : List Conflict) (cycles : List (List String)) : List String :=
  let affirmation :=
    if missing.isEmpty && conflicts.isEmpty && cycles.isEmpty then
      ["All dependencies resolved successfully."]
    else []
  sentence "Create or install" (missing.map ResolvedDependency.id)
  "missing dependency"
      "missing dependencies" ", " ++
    sentence "Give each logical reference a single path to resolve"
      (squeeze (idsOf conflicts .pathConflict)) "path conflict"
      "path conflicts" ", " ++
    sentence "Fix" (idsOf conflicts .invalidDocument)
      "unreadable workflow document" "unreadable workflow documents" ", " ++
    sentence "Break" (cycles.map chain) "circular workflow reference"
      "circular workflow references" "; " ++
    affirmation

end Workflows.Resolution
