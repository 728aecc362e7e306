import Workflows.Failure
import Workflows.Files.Path

/-!
A tree of files and directories in memory, with the permissions of its owner.  A
place in the tree is the list of names that lead to it from the root.  A path is
walked name by name, which needs the right to search each directory on the way;
relative paths start at the working directory.

Left out are links, hard and symbolic, special files such as pipes and devices,
names that are no text, and the limits of a real system on space and open files.
So what was found at a place with the right to read it can also be opened.
-/

namespace Workflows

inductive Content where
  | text (s : String)
  | binary (bytes : List Nat)
  deriving DecidableEq, Repr

/-- What is at a place; the mode holds the nine permission bits. -/
inductive FileEntry where
  | file (content : Content) (mode : Nat)
  | directory (mode : Nat)
  deriving DecidableEq, Repr

abbrev Place := List String

namespace FileEntry

def mode : FileEntry → Nat
  | file _ mode => mode
  | directory mode => mode

def isDirectory : FileEntry → Bool
  | directory _ => true
  | file _ _ => false

def withMode (mode : Nat) : FileEntry → FileEntry
  | file content _ => file content mode
  | directory _ => directory mode

def mayRead (e : FileEntry) : Bool := e.mode &&& 0o400 != 0

def mayWrite (e : FileEntry) : Bool := e.mode &&& 0o200 != 0

def maySearch (e : FileEntry) : Bool := e.mode &&& 0o100 != 0

def newFile (content : Content) : FileEntry := file content 0o644

def newDirectory : FileEntry := directory 0o755

end FileEntry

structure FileTree where
  entries : List (Place × FileEntry)
  workingDirectory : Place
  deriving Repr

namespace FileTree

def empty : FileTree :=
  ⟨[([], .newDirectory), (["work"], .newDirectory)], ["work"]⟩

def find? (t : FileTree) (place : Place) : Option FileEntry :=
  t.entries.lookup place

def put (t : FileTree) (place : Place) (e : FileEntry) : FileTree :=
  { t with
    entries := (place, e) :: t.entries.filter fun entry => entry.1 != place }

/-- Puts an entry at a place, and directories at the places above it where
nothing is. -/
def plant (t : FileTree) (place : Place) (e : FileEntry) : FileTree :=
  let above := (List.range place.length).map fun n => place.take n
  let make (t : FileTree) (p : Place) : FileTree :=
    if (t.find? p).isSome then t else t.put p .newDirectory
  (above.foldl make t).put place e

def prune (t : FileTree) (place : Place) : FileTree :=
  { t with entries := t.entries.filter fun entry => !place.isPrefixOf entry.1 }

def setMode (t : FileTree) (place : Place) (mode : Nat) : FileTree :=
  match t.find? place with
  | some e => t.put place (e.withMode mode)
  | none => t

def placeLe : Place → Place → Bool
  | [], _ => true
  | _ :: _, [] => false
  | a :: p, b :: q => if a = b then placeLe p q else a < b

def contents (t : FileTree) : List (Place × FileEntry) :=
  let below := t.entries.filterMap fun (place, e) =>
    if t.workingDirectory.isPrefixOf place && place != t.workingDirectory then
      some (place.drop t.workingDirectory.length, e)
    else none
  below.mergeSort fun p q => placeLe p.1 q.1

/-- Names are at most 255 bytes long and paths at most 4095. -/
def maxName : Nat := 255

def maxPath : Nat := 4095

def names (path : String) : List String :=
  ((Path.segments path.toList).filter fun s => !s.isEmpty).map String.ofList

def searchable (t : FileTree) (place : Place) : Except AccessError Unit :=
  match t.find? place with
  | none => .error .notFound
  | some (.file _ _) => .error .notADirectory
  | some (.directory mode) =>
      if (FileEntry.directory mode).maySearch then .ok ()
      else .error .permissionDenied

def child (t : FileTree) (place : Place) (name : String) :
    Except AccessError Place := do
  t.searchable place
  if name = "." then return place
  else if name = ".." then return place.dropLast
  else if maxName < name.utf8ByteSize then throw .nameTooLong
  else
    match t.find? (place ++ [name]) with
    | some _ => return place ++ [name]
    | none => throw .notFound

def walk (t : FileTree) (place : Place) : List String → Except AccessError Place
  | [] => .ok place
  | name :: rest => do t.walk (← t.child place name) rest

/-- Where the walk along a path starts; what no walk can be tried with is
refused. -/
def origin (t : FileTree) (path : String) : Except AccessError Place :=
  if path.toList.contains '\x00' then .error .nulCharacter
  else if path.isEmpty then .error .notFound
  else if maxPath < path.utf8ByteSize then .error .nameTooLong
  else .ok (if Path.isAbsolute path.toList then [] else t.workingDirectory)

def endsInSlash (path : String) : Bool := path.toList.getLast? == some '/'

/-- What a path leads to; a slash at its end asks for a directory. -/
def locate (t : FileTree) (path : String) :
    Except AccessError (Place × FileEntry) := do
  let place ← t.walk (← t.origin path) (names path)
  match t.find? place with
  | none => throw .notFound
  | some e =>
      if endsInSlash path && !e.isDirectory then throw .notADirectory
      else return (place, e)

def isDirectory (t : FileTree) (path : String) : Bool :=
  match t.locate path with
  | .ok (_, e) => e.isDirectory
  | .error _ => false

def read (t : FileTree) (path : String) : Except AccessError String := do
  let (_, e) ← t.locate path
  if !e.mayRead then throw .permissionDenied
  else
    match e with
    | .directory _ => throw .isADirectory
    | .file (.binary _) _ => throw .notText
    | .file (.text s) _ => return s

/-- The directory and the name of an entry that does not exist yet; `occupied`
is the refusal where something is there. -/
def vacancy (t : FileTree) (path : String) (occupied : AccessError) :
    Except AccessError (Place × String) := do
  let start ← t.origin path
  match (names path).getLast? with
  | none => throw occupied
  | some name =>
      let place ← t.walk start (names path).dropLast
      t.searchable place
      if name = "." ∨ name = ".." then throw occupied
      else if maxName < name.utf8ByteSize then throw .nameTooLong
      else if (t.find? (place ++ [name])).isSome then throw occupied
      else return (place, name)

def add (t : FileTree) (place : Place) (name : String) (e : FileEntry) :
    Except AccessError FileTree :=
  match t.find? place with
  | some directory =>
      if directory.mayWrite then .ok (t.put (place ++ [name]) e)
      else .error .permissionDenied
  | none => .error .notFound

def makeDirectory (t : FileTree) (path : String) :
    Except AccessError FileTree := do
  let (place, name) ← t.vacancy path .alreadyExists
  t.add place name .newDirectory

def createFile (t : FileTree) (path text : String) :
    Except AccessError FileTree := do
  let (place, name) ← t.vacancy path .alreadyExists
  if endsInSlash path then throw .isADirectory
  else t.add place name (.newFile (.text text))

/-- Writes a text to the file at a path in place of what it holds; where nothing
is, the file is made. -/
def write (t : FileTree) (path text : String) : Except AccessError FileTree :=
  match t.locate path with
  | .ok (_, .directory _) => .error .isADirectory
  | .ok (place, .file content mode) =>
      if (FileEntry.file content mode).mayWrite then
        .ok (t.put place (.file (.text text) mode))
      else .error .permissionDenied
  | .error .notFound => t.createFile path text
  | .error cause => .error cause

def exists? (t : FileTree) (path : String) : Except AccessError Bool :=
  match t.locate path with
  | .ok _ => .ok true
  | .error .notFound => .ok false
  | .error cause => .error cause

end FileTree

end Workflows
