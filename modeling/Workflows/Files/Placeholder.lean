import Workflows.Files.Tree

/-!
Placeholders for what a workflow depends on and nobody has written yet.  Missing
directories are made on the way, and stay when a later step fails; what exists
is never changed.
-/

namespace Workflows

inductive Placeholder where
  | directory
  | document (name kind : String)
  deriving DecidableEq, Repr

def Placeholder.documentText (name kind : String) : String :=
  "---\nname: " ++ name ++ "\ndescription: Placeholder " ++ kind ++
    " created for a missing dependency\nversion: 0.0.0\n---\n\n# " ++ name ++
      "\n\nThis " ++ kind ++
    " is a placeholder. Replace it with a real definition.\n"

namespace FileTree

/-- Success where a directory is at the path after all. -/
def settle (t : FileTree) (path : String) (cause : AccessError) :
    FileTree × Except AccessError Unit :=
  (t, if t.isDirectory path then .ok () else .error cause)

/-- Makes a directory and those above it that are missing; `fuel` bounds their
number. -/
def makeDirectoriesFrom :
    Nat → FileTree → String → FileTree × Except AccessError Unit
  | 0, t, _ => (t, .error .notFound)
  | fuel + 1, t, path =>
      if path.isEmpty then (t, .ok ())
      else
        match t.makeDirectory path, Path.parent? path.toList with
        | .ok t, _ => (t, .ok ())
        | .error .notFound, some parent =>
            match makeDirectoriesFrom fuel t (String.ofList parent) with
            | (t, .error cause) => (t, .error cause)
            | (t, .ok ()) =>
                match t.makeDirectory path with
                | .ok t => (t, .ok ())
                | .error cause => t.settle path cause
        | .error cause, _ => t.settle path cause

/-- A path has fewer directories above it than characters. -/
def makeDirectories (t : FileTree) (path : String) :
    FileTree × Except AccessError Unit :=
  makeDirectoriesFrom (path.length + 1) t path

def makeParents (t : FileTree) (path : String) :
    FileTree × Except ResolutionError Unit :=
  match Path.parent? path.toList with
  | none => (t, .ok ())
  | some parent =>
      let parent := String.ofList parent
      let (t, result) := t.makeDirectories parent
      (t, result.mapError (.access parent))

def createMissing (t : FileTree) (path text : String) :
    FileTree × Except AccessError Unit :=
  match t.exists? path with
  | .error cause => (t, .error cause)
  | .ok true => (t, .ok ())
  | .ok false =>
      match t.write path text with
      | .ok t => (t, .ok ())
      | .error cause => (t, .error cause)

def putPlaceholder (t : FileTree) (path : String) (p : Placeholder) :
    FileTree × Except ResolutionError Unit :=
  match p with
  | .directory =>
      let (t, result) := t.makeDirectories path
      (t, result.mapError (.access path))
  | .document name kind =>
      match t.makeParents path with
      | (t, .error cause) => (t, .error cause)
      | (t, .ok ()) =>
          let (t, result) :=
            t.createMissing path (Placeholder.documentText name kind)
          (t, result.mapError (.access path))

end FileTree

end Workflows
