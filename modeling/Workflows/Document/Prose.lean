import Workflows.Text.Digit
import Workflows.Text.Line
import Workflows.Workflow.Basic

/-!
Steps in prose.  A numbered item, a bullet and an unchecked task are steps,
named by the text after the marker; a checked task is none, nor is anything
between two fences.
-/

namespace Workflows.Document

open Text

/-- The text after a marker: blanks, at least one, and then the text, trimmed.
Where all of it is blank, the last of two or more blanks is the text. -/
def itemText? (s : List Char) : Option (List Char) :=
  let blanks := s.takeWhile isBlank
  match s.dropWhile isBlank with
  | [] => if 2 ≤ blanks.length then blanks.getLast?.map fun c => [c] else none
  | body => if blanks.isEmpty then none else some (trimEnd body)

def numbered? (line : List Char) : Option (List Char) :=
  let s := trimStart line
  if (s.takeWhile isDecimalDigit).isEmpty then none
  else
    match s.dropWhile isDecimalDigit with
    | '.' :: rest | ')' :: rest => itemText? rest
    | _ => none

def afterBullet? (line : List Char) : Option (List Char) :=
  match trimStart line with
  | '-' :: rest | '*' :: rest | '+' :: rest => some rest
  | _ => none

def afterBulletBlanks? (line : List Char) : Option (List Char) :=
  match afterBullet? line with
  | some (c :: rest) => if isBlank c then some (trimStart rest) else none
  | _ => none

def unchecked? (line : List Char) : Option (List Char) :=
  match afterBulletBlanks? line with
  | some ('[' :: ' ' :: ']' :: rest) => itemText? rest
  | _ => none

/-- A box with a cross after a bullet, and a blank after the box. -/
def isChecked (line : List Char) : Bool :=
  match afterBulletBlanks? line with
  | some ('[' :: 'x' :: ']' :: c :: _) | some ('[' :: 'X' :: ']' :: c :: _) =>
      isBlank c
  | _ => false

def bullet? (line : List Char) : Option (List Char) :=
  (afterBullet? line).bind itemText?

def itemName? (line : List Char) : Option (List Char) :=
  if isChecked line then none
  else numbered? line <|> unchecked? line <|> bullet? line

def isFence (line : List Char) : Bool :=
  match trimStart line with
  | '\x60' :: '\x60' :: '\x60' :: _ => true
  | '~' :: '~' :: '~' :: _ => true
  | _ => false

/-- The names of the steps on some lines; `fenced` tells that the first line is
inside a fence. -/
def itemNames (fenced : Bool) : List (List Char) → List (List Char)
  | [] => []
  | line :: rest =>
      if isFence line then itemNames (!fenced) rest
      else if fenced then itemNames fenced rest
      else
        match itemName? line with
        | some name => name :: itemNames fenced rest
        | none => itemNames fenced rest

def stepId (position : Nat) : String := "step-" ++ toString (position + 1)

def proseSteps (text : List Char) : List Step :=
  (itemNames false (lines text)).mapIdx fun i name =>
    Step.ofName (stepId i) (String.ofList name)

def heading? (text : List Char) : Option (List Char) :=
  let title? (line : List Char) : Option (List Char) :=
    match trim line with
    | '#' :: ' ' :: rest => some (trim rest)
    | _ => none
  match (lines text).findSome? title? with
  | some [] => none
  | found => found

end Workflows.Document
