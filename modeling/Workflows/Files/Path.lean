/-!
Paths as text.  A path is a row of segments between slashes.  Nothing is
normalised in what is shown; two paths mean the same place where their
components agree, which leaves out empty segments and every single point but one
at the very start.
-/

namespace Workflows.Path

def isAbsolute (path : List Char) : Bool := path.head? == some '/'

def segments : List Char → List (List Char)
  | [] => [[]]
  | c :: rest =>
      if c = '/' then [] :: segments rest
      else
        match segments rest with
        | first :: others => (c :: first) :: others
        | [] => [[c]]

inductive Component where
  | root
  | current
  | parent
  | name (text : List Char)
  deriving DecidableEq, Repr

def component? (segment : List Char) : Option Component :=
  match segment with
  | [] | ['.'] => none
  | ['.', '.'] => some .parent
  | text => some (.name text)

def componentsOf (path : List Char) : List Component :=
  match path with
  | '/' :: _ => .root :: (segments path).filterMap component?
  | '.' :: [] | '.' :: '/' :: _ =>
      .current :: (segments path).filterMap component?
  | _ => (segments path).filterMap component?

def components (path : String) : List Component := componentsOf path.toList

def samePlace (p q : String) : Bool := components p == components q

/-- A path taken from a base.  An absolute path stands for itself; otherwise
there is one slash between the two unless the base is empty or ends in one. -/
def join (base path : String) : String :=
  if isAbsolute path.toList then path
  else if base.isEmpty ∨ base.toList.getLast? = some '/' then base ++ path
  else base ++ "/" ++ path

/-- How many characters at the start belong to no segment that can be taken off:
the slash of an absolute path, or a single point. -/
def leadLength (path : List Char) : Nat :=
  match path with
  | '/' :: _ | '.' :: [] | '.' :: '/' :: _ => 1
  | _ => 0

def trimReversed : List Char → List Char
  | '/' :: rest => trimReversed rest
  | '.' :: '/' :: rest => trimReversed rest
  | ['.'] => []
  | path => path

def parent? (path : List Char) : Option (List Char) :=
  let lead := path.take (leadLength path)
  match trimReversed (path.drop (leadLength path)).reverse with
  | [] => if lead = ['.'] then some [] else none
  | body =>
      let above := (body.dropWhile fun c => c != '/').drop 1
      some (lead ++ (trimReversed above).reverse)

def fileName? (path : List Char) : Option (List Char) :=
  match (componentsOf path).getLast? with
  | some (.name text) => some text
  | _ => none

/-- The text after the last point of the file name, where something stands
before that point. -/
def extension? (path : List Char) : Option (List Char) := do
  let reversed := (← fileName? path).reverse
  match reversed.dropWhile fun c => c != '.' with
  | '.' :: _ :: _ => some (reversed.takeWhile fun c => c != '.').reverse
  | _ => none

end Workflows.Path
