import Workflows.Files.Tree
import Workflows.Json.Basic

/-!
What a path leads to, and whether it can be opened.  A path that leads nowhere
and one that may not be opened are reported; any other refusal is an error.  To
open what was found fails for want of permission only, as the tree holds nothing
that could be gone or busy by then.
-/

namespace Workflows

inductive PathKind where
  | file
  | directory
  | notFound
  deriving DecidableEq, Repr

def PathKind.name : PathKind → String
  | file => "file"
  | directory => "directory"
  | notFound => "not-found"

structure Permissions where
  read : Bool
  write : Bool
  execute : Bool
  deriving DecidableEq, Repr

def Permissions.nothing : Permissions := ⟨false, false, false⟩

/-- What can be done with an entry that was opened: whether anyone may write or
execute it. -/
def Permissions.ofMode (mode : Nat) : Permissions :=
  ⟨true, mode &&& 0o222 != 0, mode &&& 0o111 != 0⟩

structure PathReport where
  path : String
  exist : Bool
  accessible : Bool
  kind : PathKind
  permissions : Permissions
  error : Option String
  deriving DecidableEq, Repr

namespace PathReport

def missing (path : String) : PathReport :=
  ⟨path, false, false, .notFound, .nothing, some "Path does not exist"⟩

def denied (path : String) (kind : PathKind) : PathReport :=
  ⟨path, true, false, kind, .nothing, some "Permission denied"⟩

def opened (path : String) (kind : PathKind) (mode : Nat) : PathReport :=
  ⟨path, true, true, kind, .ofMode mode, none⟩

def isUsable (r : PathReport) : Bool := r.exist && r.accessible

def toJson (r : PathReport) : Json :=
  let members := [("path", Json.str r.path), ("exists", .bool r.exist),
    ("accessible", .bool r.accessible), ("type", .str r.kind.name),
    ("permissions", .obj [("read", .bool r.permissions.read),
      ("write", .bool r.permissions.write),
      ("execute", .bool r.permissions.execute)])]
  match r.error with
  | some error => .obj (members ++ [("error", .str error)])
  | none => .obj members

end PathReport

def FileEntry.kind (e : FileEntry) : PathKind :=
  if e.isDirectory then .directory else .file

namespace FileTree

def inspect (t : FileTree) (path : String) :
    Except ResolutionError PathReport :=
  match t.locate path with
  | .ok (_, e) =>
      if e.mayRead then .ok (.opened path e.kind e.mode)
      else .ok (.denied path e.kind)
  | .error .notFound => .ok (.missing path)
  | .error .permissionDenied => .ok (.denied path .file)
  | .error cause => .error (.access path cause)

def document (t : FileTree) (path : String) : Except ResolutionError String :=
  (t.read path).mapError (.access path)

end FileTree

end Workflows
