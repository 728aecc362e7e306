import Workflows.Files.Path

/-!
Paths as a system has them.  Such a path is a row of bytes, of which most are
the encoding of a text; the rest are stray.  It is shown as text with the
replacement character in place of what is stray, and a text is a path without
stray bytes.
-/

namespace Workflows

/-- A character that bytes of the path encode, or bytes that encode none. -/
inductive PathPiece where
  | char (c : Char)
  | stray (bytes : List UInt8)
  deriving DecidableEq, Repr

namespace PathPiece

def isChar : PathPiece → Bool
  | char _ => true
  | stray _ => false

def shown : PathPiece → Char
  | char c => c
  | stray _ => '\uFFFD'

end PathPiece

abbrev SystemPath := List PathPiece

namespace SystemPath

def ofText (path : String) : SystemPath := path.toList.map .char

def isText (p : SystemPath) : Bool := p.all PathPiece.isChar

/-- The text that a path is shown and stored as. -/
def shown (p : SystemPath) : String := String.ofList (p.map PathPiece.shown)

def isAbsolute (p : SystemPath) : Bool := p.head? == some (.char '/')

def join (base path : SystemPath) : SystemPath :=
  if isAbsolute path then path
  else if base.isEmpty ∨ base.getLast? = some (.char '/') then base ++ path
  else base ++ .char '/' :: path

def segments : SystemPath → List SystemPath
  | [] => [[]]
  | x :: rest =>
      if x = .char '/' then [] :: segments rest
      else
        match segments rest with
        | first :: others => (x :: first) :: others
        | [] => [[x]]

inductive Component where
  | root
  | current
  | parent
  | name (pieces : SystemPath)
  deriving DecidableEq, Repr

def component? (segment : SystemPath) : Option Component :=
  match segment with
  | [] | [.char '.'] => none
  | [.char '.', .char '.'] => some .parent
  | pieces => some (.name pieces)

def components (p : SystemPath) : List Component :=
  match p with
  | .char '/' :: _ => .root :: (segments p).filterMap component?
  | .char '.' :: [] | .char '.' :: .char '/' :: _ =>
      .current :: (segments p).filterMap component?
  | _ => (segments p).filterMap component?

def samePlace (p q : SystemPath) : Bool := components p == components q

end SystemPath

end Workflows
