import Workflows.Failure
import Workflows.Text.Line

/-!
Front matter: a block between a line of three hyphens, the first line that is
not blank, and the next line of three hyphens or three points.
-/

namespace Workflows.Document

open Text

def isByteOrderMark (c : Char) : Bool := c == '\ufeff'

/-- The lines of a text from the first one that is not blank; byte order marks
before it are left out. -/
def contentLines (text : List Char) : List (List Char) :=
  (lines (text.dropWhile isByteOrderMark)).dropWhile fun l => (trim l).isEmpty

def isOpener (line : List Char) : Bool := trimEnd line == ['-', '-', '-']

def isCloser (line : List Char) : Bool :=
  trimEnd line == ['-', '-', '-'] || trimEnd line == ['.', '.', '.']

def opensFrontMatter (text : List Char) : Bool :=
  (contentLines text).head?.any isOpener

structure Parts where
  front : Option (List Char)
  body : List Char
  deriving DecidableEq, Repr

/-- The body of a text without front matter is the text as it is. -/
def split (text : List Char) : Except DocumentError Parts :=
  if !opensFrontMatter text then .ok ⟨none, text⟩
  else
    let inner := (contentLines text).drop 1
    let front := inner.takeWhile (!isCloser ·)
    match inner.drop front.length with
    | [] => .error .unterminatedFrontMatter
    | _ :: body => .ok ⟨some (joinLines front), joinLines body⟩

end Workflows.Document
