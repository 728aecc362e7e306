import Workflows.Number.Binary64

/-!
JSON values.  An object keeps its members in the order in which they were
written, a repeated name included; `canonical` is the same value with every
object sorted by name and the last member of each name kept, the form of
free-form data.
-/

namespace Workflows

inductive Json where
  | null
  | bool (value : Bool)
  | int (value : Int)
  | real (value : Binary64)
  | str (value : String)
  | arr (items : List Json)
  | obj (members : List (String × Json))
  deriving Repr

namespace Json

/-- Adds a member at its place among members sorted by name, replacing one of
the same name. -/
def insertMember (name : String) (value : Json) :
    List (String × Json) → List (String × Json)
  | [] => [(name, value)]
  | (other, held) :: rest =>
      if name < other then (name, value) :: (other, held) :: rest
      else if name = other then (name, value) :: rest
      else (other, held) :: insertMember name value rest

def member? (members : List (String × Json)) (name : String) : Option Json :=
  (members.find? fun entry => entry.1 == name).map Prod.snd

def removeMember (members : List (String × Json)) (name : String) :
    List (String × Json) :=
  members.filter fun entry => entry.1 != name

mutual

def canonical : Json → Json
  | .arr items => .arr (canonicalItems items)
  | .obj members => .obj (canonicalMembers members)
  | value => value

def canonicalItems : List Json → List Json
  | [] => []
  | item :: rest => canonical item :: canonicalItems rest

def canonicalMembers : List (String × Json) → List (String × Json)
  | [] => []
  | (name, value) :: rest =>
      let sorted := canonicalMembers rest
      if (member? sorted name).isSome then sorted
      else insertMember name (canonical value) sorted

end

end Json

end Workflows
