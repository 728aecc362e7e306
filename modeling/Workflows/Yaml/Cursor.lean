/-!
A position in a YAML text.  A column counts the characters since the last line
break; a carriage return with its line feed is one break.  `Gap` is what lies
between two runs of characters of a scalar and folds to the text that stands for
it.
-/

namespace Workflows.Yaml

def isAllowed (c : Char) : Bool :=
  let n := c.toNat
  n == 9 || n == 10 || n == 13 || (0x20 ≤ n && n ≤ 0x7E) || n == 0x85 ||
    (0xA0 ≤ n && n ≤ 0xD7FF) || (0xE000 ≤ n && n ≤ 0xFFFD) || 0x10000 ≤ n

def isBreak (c : Char) : Bool :=
  c == '\n' || c == '\r' || c == '\u0085' || c == '\u2028' || c == '\u2029'

def isSpace (c : Char) : Bool := c == ' ' || c == '\t'

def isWordChar (c : Char) : Bool :=
  ('0' ≤ c && c ≤ '9') || ('A' ≤ c && c ≤ 'Z') || ('a' ≤ c && c ≤ 'z') || c ==
    '_' || c == '-'

def endsWord : List Char → Bool
  | [] => true
  | c :: _ => isBreak c || isSpace c

def endsLine : List Char → Bool
  | [] => true
  | c :: _ => isBreak c

structure Cursor where
  rest : List Char
  index : Nat
  line : Nat
  column : Nat
  deriving Repr

namespace Cursor

def ofText (text : List Char) : Cursor := ⟨text, 0, 0, 0⟩

def skip (c : Cursor) (count : Nat) : Cursor :=
  { c with
    rest := c.rest.drop count
    index := c.index + count
    column := c.column + count }

def moveTo (c : Cursor) (rest : List Char) : Cursor :=
  let count := c.rest.length - rest.length
  { c with rest := rest, index := c.index + count, column := c.column + count }

def skipLine (c : Cursor) : Cursor :=
  match c.rest with
  | '\r' :: '\n' :: rest => ⟨rest, c.index + 2, c.line + 1, 0⟩
  | ch :: rest => if isBreak ch then ⟨rest, c.index + 1, c.line + 1, 0⟩ else c
  | [] => c

def breakText (c : Cursor) : List Char :=
  match c.rest with
  | ch :: _ =>
      if ch == '\u2028' || ch == '\u2029' then [ch]
      else if isBreak ch then ['\n']
      else []
  | [] => []

def takeWhile (c : Cursor) (p : Char → Bool) : List Char × Cursor :=
  (c.rest.takeWhile p, c.moveTo (c.rest.dropWhile p))

def skipWhile (c : Cursor) (p : Char → Bool) : Cursor :=
  c.moveTo (c.rest.dropWhile p)

def startsWith (c : Cursor) (p : Char → Bool) : Bool :=
  match c.rest with
  | ch :: _ => p ch
  | [] => false

/-- A line that is three hyphens or three points, alone or before a blank,
bounds a document. -/
def atDocumentMark (c : Cursor) : Bool :=
  c.column == 0 &&
    match c.rest with
    | '-' :: '-' :: '-' :: rest => endsWord rest
    | '.' :: '.' :: '.' :: rest => endsWord rest
    | _ => false

def skipToLineEnd? (c : Cursor) : Option Cursor :=
  let c := c.skipWhile isSpace
  let c := if c.startsWith (· == '#') then c.skipWhile (!isBreak ·) else c
  if endsLine c.rest then some c else none

end Cursor

structure Gap where
  broken : Bool
  blanks : List Char
  first : List Char
  others : List Char
  deriving Repr

namespace Gap

def empty : Gap := ⟨false, [], [], []⟩

/-- One line feed folds to a blank, and more to one less. -/
def folded (g : Gap) : List Char :=
  if g.broken then
    match g.first with
    | '\n' :: _ => if g.others.isEmpty then [' '] else g.others
    | first => first ++ g.others
  else g.blanks

/-- Reads blanks and breaks.  After a break, a tab left of the column `limit` is
refused. -/
def read? : Nat → (limit : Int) → Gap → Cursor → Option (Gap × Cursor)
  | 0, _, _, _ => none
  | fuel + 1, limit, g, c =>
      match c.rest with
      | [] => some (g, c)
      | ch :: _ =>
          if isSpace ch then
            if g.broken then
              if ch = '\t' ∧ (c.column : Int) < limit then none
              else read? fuel limit g (c.skip 1)
            else read? fuel limit { g with blanks := g.blanks ++ [ch] }
              (c.skip 1)
          else if isBreak ch then
            let g' : Gap :=
              if g.broken then { g with others := g.others ++ c.breakText }
              else { g with broken := true, blanks := [], first := c.breakText }
            read? fuel limit g' c.skipLine
          else some (g, c)

end Gap

end Workflows.Yaml
