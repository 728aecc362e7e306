import Workflows.Yaml.Cursor

/-!
Block scalars.  After the header line come the lines indented at least as deep
as the first one that is not empty, or as the header says.  A literal scalar
keeps its breaks; a folded one joins neighbouring lines that do not start with a
blank.  The header also says what happens to the breaks at the end.
-/

namespace Workflows.Yaml

/-- What is kept of the breaks at the end: none, the first, or all. -/
inductive Chomp where
  | strip
  | clip
  | keep
  deriving DecidableEq, Repr

structure BlockHeader where
  chomp : Chomp
  increment : Nat
  deriving Repr

def chomp? (c : Char) : Option Chomp :=
  if c = '+' then some .keep else if c = '-' then some .strip else none

def isIncrement (c : Char) : Bool := '1' ≤ c && c ≤ '9'

/-- The indicators of a header, in either order; the digit zero is none of
them. -/
def blockHeader (s : List Char) : BlockHeader × List Char :=
  match s with
  | [] => (⟨.clip, 0⟩, [])
  | c :: rest =>
      match chomp? c with
      | some chomp =>
          match rest with
          | d :: rest =>
              if isIncrement d then (⟨chomp, d.toNat - 48⟩, rest)
              else (⟨chomp, 0⟩, d :: rest)
          | [] => (⟨chomp, 0⟩, [])
      | none =>
          if isIncrement c then
            match rest with
            | d :: rest =>
                match chomp? d with
                | some chomp => (⟨chomp, c.toNat - 48⟩, rest)
                | none => (⟨.clip, c.toNat - 48⟩, d :: rest)
            | [] => (⟨.clip, c.toNat - 48⟩, [])
          else (⟨.clip, 0⟩, c :: rest)

/-- Reads empty lines and the indentation of the next line.  The indentation 0
is not known yet: then all blanks count, and the deepest column seen is returned
with the breaks. -/
def blockBreaks? (indent : Nat) :
    Nat → (deepest : Nat) → Cursor → Option ((List Char × Nat) × Cursor)
  | 0, _, _ => none
  | fuel + 1, deepest, c =>
      let blanks := (c.rest.takeWhile (· == ' ')).length
      let c :=
        c.skip (if indent = 0 then blanks else min blanks (indent - c.column))
      let deepest := max deepest c.column
      if (indent = 0 ∨ c.column < indent) ∧ c.startsWith (· == '\t') then none
      else if c.startsWith isBreak then do
        let ((breaks, deepest), c') ← blockBreaks? indent fuel deepest
          c.skipLine
        return ((c.breakText ++ breaks, deepest), c')
      else some (([], deepest), c)

/-- The lines of a block scalar.  `first` is the break that ended the line
before, `others` are the breaks of the empty lines after it, and `blank` tells
whether that line started with one. -/
def blockLines? (literal : Bool) (chomp : Chomp) (indent : Nat) :
    Nat → (first others : List Char) → (blank : Bool) → Cursor →
      Option (List Char × Cursor)
  | 0, _, _, _, _ => none
  | fuel + 1, first, others, blank, c =>
      if c.column = indent ∧ !c.rest.isEmpty then do
        let nextBlank := c.startsWith isSpace
        let folds :=
          !literal && first.head? == some '\n' && !blank && !nextBlank
        let lead :=
          if folds then (if others.isEmpty then [' '] else others)
          else first ++ others
        let (line, c) := c.takeWhile (!isBreak ·)
        let ended := c.breakText
        let c := c.skipLine
        let ((breaks, _), c) ← blockBreaks? indent (c.rest.length + 1) 0 c
        let (more, c) ← blockLines? literal chomp indent fuel ended breaks
          nextBlank c
        return (lead ++ line ++ more, c)
      else
        match chomp with
        | .strip => some ([], c)
        | .clip => some (first, c)
        | .keep => some (first ++ others, c)

/-- Reads on after the indicator of a block scalar whose parent is indented by
`parent`, which is −1 at the top. -/
def block? (literal : Bool) (parent : Int) (c : Cursor) :
    Option (List Char × Cursor) := do
  let (header, rest) := blockHeader c.rest
  let c ← (c.moveTo rest).skipToLineEnd?
  let c := c.skipLine
  let given :=
    if header.increment = 0 then 0 else parent.toNat + header.increment
  let ((breaks, deepest), c) ← blockBreaks? given (c.rest.length + 1) 0 c
  let indent := if given = 0 then max (max deepest (parent + 1).toNat) 1
    else given
  blockLines? literal header.chomp indent (c.rest.length + 1) [] breaks false c

end Workflows.Yaml
