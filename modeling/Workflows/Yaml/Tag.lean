import Workflows.Yaml.Quoted

/-!
Tags, anchors and directives.  A written tag is a handle and a suffix; a
directive of the document says which text a handle stands for.
-/

namespace Workflows.Yaml

/-- A tag as written.  The lone exclamation mark has an empty handle. -/
structure Tag where
  handle : String
  suffix : String
  deriving DecidableEq, Repr

structure Handle where
  name : String
  text : String
  deriving DecidableEq, Repr

def isUriChar (verbatim : Bool) (c : Char) : Bool :=
  isWordChar c || ";/?:@&=+$.!~*()".toList.contains c || c == '\x27' ||
    (verbatim && (c == ',' || c == '[' || c == ']'))

def leadByte? (b : Nat) : Option (Nat × Nat) :=
  if b < 0x80 then some (1, b)
  else if 0xC0 ≤ b ∧ b < 0xE0 then some (2, b - 0xC0)
  else if 0xE0 ≤ b ∧ b < 0xF0 then some (3, b - 0xE0)
  else if 0xF0 ≤ b ∧ b < 0xF8 then some (4, b - 0xF0)
  else none

/-- The characters of a tag or of what a handle stands for.  `pending` is the
number of bytes that an escaped character still lacks, and `value` what the
bytes so far amount to. -/
def uriRun? (verbatim : Bool) (pending value : Nat) :
    List Char → Option (List Char × List Char)
  | '%' :: a :: b :: rest => do
      let byte ← hexNumber? [a, b]
      let (left, value) ←
        if pending = 0 then (leadByte? byte).map fun (n, bits) => (n - 1, bits)
        else if 0x80 ≤ byte ∧ byte < 0xC0 then
          some (pending - 1, value * 64 + (byte - 0x80))
        else none
      let (run, rest) ← uriRun? verbatim left value rest
      return (if left = 0 then Char.ofNat value :: run else run, rest)
  | c :: rest =>
      if pending ≠ 0 ∨ c = '%' then none
      else if isUriChar verbatim c then do
        let (run, rest) ← uriRun? verbatim 0 0 rest
        return (c :: run, rest)
      else some ([], c :: rest)
  | [] => if pending = 0 then some ([], []) else none

def handle? (s : List Char) : Option (List Char × List Char) :=
  match s with
  | '!' :: rest =>
      let word := rest.takeWhile isWordChar
      match rest.dropWhile isWordChar with
      | '!' :: rest => some ('!' :: (word ++ ['!']), rest)
      | rest => some ('!' :: word, rest)
  | _ => none

def verbatimTag? (s : List Char) : Option (Tag × List Char) :=
  match uriRun? true 0 0 s with
  | some (run, '>' :: rest) =>
      if run.isEmpty then none else some (⟨"", String.ofList run⟩, rest)
  | _ => none

/-- A handle and a suffix.  What turns out not to be a handle belongs to the
suffix. -/
def shortTag? (s : List Char) : Option (Tag × List Char) := do
  let (handle, rest) ← handle? s
  let (run, rest) ← uriRun? false 0 0 rest
  if 2 ≤ handle.length ∧ handle.getLast? = some '!' then
    if run.isEmpty then none
    else some (⟨String.ofList handle, String.ofList run⟩, rest)
  else
    let suffix := handle.drop 1 ++ run
    if suffix.isEmpty then some (⟨"", "!"⟩, rest)
    else some (⟨"!", String.ofList suffix⟩, rest)

/-- A tag, from its exclamation mark to the blank, break or, inside brackets,
comma after it. -/
def tag? (flow : Bool) (s : List Char) : Option (Tag × List Char) := do
  let (tag, rest) ←
    match s with
    | '!' :: '<' :: rest => verbatimTag? rest
    | _ => shortTag? s
  if endsWord rest || (flow && rest.head? == some ',') then some (tag, rest)
  else none

def anchorName? (s : List Char) : Option (String × List Char) :=
  let name := s.takeWhile isWordChar
  let rest := s.dropWhile isWordChar
  let bounded :=
    endsWord rest ||
      match rest with
      | c :: _ => "?:,]\x7d%@\x60".toList.contains c
      | [] => true
  if name.isEmpty || !bounded then none else some (String.ofList name, rest)

inductive Directive where
  | version (major minor : Nat)
  | handle (handle : Handle)
  deriving DecidableEq, Repr

def versionNumber? (s : List Char) : Option (Nat × List Char) :=
  let digits := s.takeWhile Char.isDigit
  if digits.isEmpty ∨ 9 < digits.length then none
  else some (Nat.ofDigitChars 10 digits 0, s.dropWhile Char.isDigit)

def versionDirective? (s : List Char) : Option (Directive × List Char) := do
  let (major, rest) ← versionNumber? s
  match rest with
  | '.' :: rest =>
      let (minor, rest) ← versionNumber? rest
      some (.version major minor, rest)
  | _ => none

def handleDirective? (s : List Char) : Option (Directive × List Char) := do
  let (handle, rest) ← handle? s
  if handle.getLast? ≠ some '!' ∨ !rest.head?.any isSpace then none
  else
    let (text, rest) ← uriRun? true 0 0 (rest.dropWhile isSpace)
    if text.isEmpty || !endsWord rest then none
    else some (.handle ⟨String.ofList handle, String.ofList text⟩, rest)

def directive? (c : Cursor) : Option (Directive × Cursor) := do
  let name := String.ofList (c.rest.takeWhile isWordChar)
  let rest := c.rest.dropWhile isWordChar
  let (directive, rest) ←
    if !endsWord rest then none
    else if name = "YAML" then versionDirective? (rest.dropWhile isSpace)
    else if name = "TAG" then handleDirective? (rest.dropWhile isSpace)
    else none
  let c ← (c.moveTo rest).skipToLineEnd?
  return (directive, c.skipLine)

end Workflows.Yaml
