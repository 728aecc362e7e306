import Workflows.Yaml.Tag
import Workflows.Yaml.Plain
import Workflows.Yaml.Block

/-!
Tokens of a YAML text.  Indentation turns into tokens that open and close block
collections.  What may turn out to be a key is remembered with its place among
the tokens; at the colon after it, the key token and perhaps the opening of a
mapping are inserted there.
-/

namespace Workflows.Yaml

inductive Token where
  | directive (directive : Directive)
  | documentStart
  | documentEnd
  | blockSequenceStart
  | blockMappingStart
  | blockEnd
  | flowSequenceStart
  | flowSequenceEnd
  | flowMappingStart
  | flowMappingEnd
  | blockEntry
  | flowEntry
  | key
  | value
  | alias (name : String)
  | anchor (name : String)
  | tag (tag : Tag)
  | scalar (text : String) (plain : Bool)
  deriving DecidableEq, Repr

/-- The place where a key may have started.  A required one is at the
indentation of the block mapping around it, where nothing but a key can
stand. -/
structure PendingKey where
  index : Nat
  line : Nat
  column : Nat
  token : Nat
  required : Bool
  deriving Repr

/-- `indent` is the column of the innermost open block collection, −1 when none
is open, `indents` those around it; `key` is the pending key of the innermost
open bracket or brace and `outerKeys` those around it; `tokens` are the tokens
so far, the newest first. -/
structure Lexer where
  cursor : Cursor
  indent : Int
  indents : List Int
  keyAllowed : Bool
  key : Option PendingKey
  outerKeys : List (Option PendingKey)
  tokens : List Token
  count : Nat
  deriving Repr

namespace Lexer

def start (text : List Char) : Lexer :=
  ⟨Cursor.ofText text, -1, [], true, none, [], [], 0⟩

def flow (s : Lexer) : Bool := !s.outerKeys.isEmpty

def push (s : Lexer) (t : Token) : Lexer :=
  { s with tokens := t :: s.tokens, count := s.count + 1 }

def insert (s : Lexer) (number : Nat) (t : Token) : Lexer :=
  let later := s.count - number
  { s with
    tokens := s.tokens.take later ++ t :: s.tokens.drop later
    count := s.count + 1 }

/-- A key must end on the line where it starts, within 1024 characters. -/
def PendingKey.isStale (k : PendingKey) (c : Cursor) : Bool :=
  k.line < c.line || k.index + 1024 < c.index

def dropStale? (c : Cursor) (key : Option PendingKey) :
    Option (Option PendingKey) :=
  match key with
  | some k =>
      if PendingKey.isStale k c then (if k.required then none else some none)
      else some key
  | none => some none

def dropStaleKeys? (s : Lexer) : Option Lexer := do
  let key ← dropStale? s.cursor s.key
  let outerKeys ← s.outerKeys.mapM (dropStale? s.cursor)
  return { s with key, outerKeys }

def dropKey? (s : Lexer) : Option Lexer :=
  match s.key with
  | some k => if k.required then none else some { s with key := none }
  | none => some s

def saveKey? (s : Lexer) : Option Lexer :=
  if s.keyAllowed then do
    let c := s.cursor
    let required := !s.flow && s.indent == (c.column : Int)
    let s ← s.dropKey?
    return { s with key := some ⟨c.index, c.line, c.column, s.count, required⟩ }
  else some s

def closed (column : Int) : Int → List Int → Nat × Int × List Int
  | indent, [] => if column < indent then (1, -1, []) else (0, indent, [])
  | indent, outer :: outers =>
      if column < indent then
        let (n, rest) := closed column outer outers
        (n + 1, rest)
      else (0, indent, outer :: outers)

def unroll (s : Lexer) (column : Int) : Lexer :=
  if s.flow then s
  else
    let (n, indent, indents) := closed column s.indent s.indents
    { s with
      indent := indent
      indents := indents
      tokens := List.replicate n .blockEnd ++ s.tokens
      count := s.count + n }

/-- Opens a block collection when `column` is deeper than the open one; the
token goes before the one with the given number. -/
def roll (s : Lexer) (column : Nat) (number : Nat) (t : Token) : Lexer :=
  if !s.flow && s.indent < column then
    { s.insert number t with
      indent := column, indents := s.indent :: s.indents }
  else s

def isMark (c : Char) : Bool := c == '\ufeff'

/-- Passes over blanks, comments and breaks.  A break outside brackets allows a
key again, and where a key is allowed there, a tab is not passed over. -/
def skipGap (flow : Bool) : Nat → Bool → Cursor → Bool × Cursor
  | 0, keyAllowed, c => (keyAllowed, c)
  | fuel + 1, keyAllowed, c =>
      let c := if c.index == 0 && c.startsWith isMark then c.skip 1 else c
      let c := c.skipWhile fun ch =>
        ch == ' ' || ((flow || !keyAllowed) && ch == '\t')
      let c := if c.startsWith (· == '#') then c.skipWhile (!isBreak ·) else c
      if c.startsWith isBreak then
        skipGap flow fuel (keyAllowed || !flow) c.skipLine
      else (keyAllowed, c)

def approach? (s : Lexer) : Option Lexer := do
  let (keyAllowed, cursor) :=
    skipGap s.flow (s.cursor.rest.length + 1) s.keyAllowed s.cursor
  let s ← { s with keyAllowed, cursor }.dropStaleKeys?
  return s.unroll cursor.column

def mark (s : Lexer) (t : Token) (count : Nat) : Lexer :=
  { s.push t with cursor := s.cursor.skip count }

def word (s : Lexer) (t : Token) (rest : List Char) : Lexer :=
  { s.push t with cursor := s.cursor.moveTo rest }

def scalar (s : Lexer) (text : List Char) (plain : Bool) (cursor : Cursor) :
    Lexer :=
  { s.push (.scalar (String.ofList text) plain) with cursor := cursor }

def documentMark? (s : Lexer) (t : Token) : Option Lexer := do
  let s ← (s.unroll (-1)).dropKey?
  return { s.mark t 3 with keyAllowed := false }

def directiveToken? (s : Lexer) : Option Lexer := do
  let s ← (s.unroll (-1)).dropKey?
  let (directive, cursor) ← directive? (s.cursor.skip 1)
  return { s.push (.directive directive) with
    cursor := cursor, keyAllowed := false }

def openFlow? (s : Lexer) (t : Token) : Option Lexer := do
  let s ← s.saveKey?
  return { s.mark t 1 with
    keyAllowed := true, key := none, outerKeys := s.key :: s.outerKeys }

def closeFlow? (s : Lexer) (t : Token) : Option Lexer := do
  let s ← s.dropKey?
  let (key, outerKeys) :=
    match s.outerKeys with
    | key :: outerKeys => (key, outerKeys)
    | [] => (s.key, [])
  return { s.mark t 1 with
    keyAllowed := false, key := key, outerKeys := outerKeys }

def flowComma? (s : Lexer) : Option Lexer := do
  let s ← s.dropKey?
  return { s.mark .flowEntry 1 with keyAllowed := true }

def blockDash? (s : Lexer) : Option Lexer := do
  if !s.flow && !s.keyAllowed then none
  else
    let s ← (s.roll s.cursor.column s.count .blockSequenceStart).dropKey?
    return { s.mark .blockEntry 1 with keyAllowed := true }

def explicitKey? (s : Lexer) : Option Lexer := do
  if !s.flow && !s.keyAllowed then none
  else
    let s ← (s.roll s.cursor.column s.count .blockMappingStart).dropKey?
    return { s.mark .key 1 with keyAllowed := !s.flow }

def value? (s : Lexer) : Option Lexer :=
  match s.key with
  | some k =>
      let s := (s.insert k.token .key).roll k.column k.token .blockMappingStart
      some { s.mark .value 1 with key := none, keyAllowed := false }
  | none =>
      if !s.flow && !s.keyAllowed then none
      else
        let s := s.roll s.cursor.column s.count .blockMappingStart
        some { s.mark .value 1 with keyAllowed := !s.flow }

def anchor? (s : Lexer) (t : String → Token) : Option Lexer := do
  let s ← s.saveKey?
  let (name, rest) ← anchorName? (s.cursor.rest.drop 1)
  return { s.word (t name) rest with keyAllowed := false }

def tagToken? (s : Lexer) : Option Lexer := do
  let s ← s.saveKey?
  let (tag, rest) ← tag? s.flow s.cursor.rest
  return { s.word (.tag tag) rest with keyAllowed := false }

def blockScalar? (s : Lexer) (literal : Bool) : Option Lexer := do
  let s ← s.dropKey?
  let (text, cursor) ← block? literal s.indent (s.cursor.skip 1)
  return { s.scalar text false cursor with keyAllowed := true }

def quotedScalar? (s : Lexer) (quote : Char) : Option Lexer := do
  let s ← s.saveKey?
  let (text, cursor) ← quoted? quote (s.cursor.rest.length + 1)
    (s.cursor.skip 1)
  return { s.scalar text false cursor with keyAllowed := false }

def plainScalar? (s : Lexer) : Option Lexer := do
  let s ← s.saveKey?
  let ((text, broken), cursor) ←
    plain? s.flow (s.indent + 1) (s.cursor.rest.length + 1) Gap.empty s.cursor
  return { s.scalar text true cursor with keyAllowed := broken }

/-- Indicators cannot start a plain scalar; three of them can before a character
that is no blank, the question mark and the colon only outside brackets. -/
def startsPlain (flow : Bool) : List Char → Bool
  | [] => false
  | c :: rest =>
      !(isSpace c || isBreak c ||
          "-?:,[]\x7b\x7d#&*!|>\x27\x22%@\x60".toList.contains c) ||
        (c == '-' && !rest.head?.any isSpace) ||
        (!flow && (c == '?' || c == ':') && !endsWord rest)

def token? (s : Lexer) : Option Lexer :=
  let rest := s.cursor.rest
  let next := rest.drop 1
  let c := rest.headD ' '
  if s.cursor.column == 0 && c == '%' then s.directiveToken?
  else if s.cursor.atDocumentMark then
    s.documentMark? (if c == '-' then .documentStart else .documentEnd)
  else if c == '[' then s.openFlow? .flowSequenceStart
  else if c == '{' then s.openFlow? .flowMappingStart
  else if c == ']' then s.closeFlow? .flowSequenceEnd
  else if c == '}' then s.closeFlow? .flowMappingEnd
  else if c == ',' then s.flowComma?
  else if c == '-' && endsWord next then s.blockDash?
  else if c == '?' && (s.flow || endsWord next) then s.explicitKey?
  else if c == ':' && (s.flow || endsWord next) then s.value?
  else if c == '*' then s.anchor? .alias
  else if c == '&' then s.anchor? .anchor
  else if c == '!' then s.tagToken?
  else if c == '|' && !s.flow then s.blockScalar? true
  else if c == '>' && !s.flow then s.blockScalar? false
  else if c == '\x27' then s.quotedScalar? c
  else if c == '\x22' then s.quotedScalar? c
  else if startsPlain s.flow rest then s.plainScalar?
  else none

def run? : Nat → Lexer → Option (List Token)
  | 0, _ => none
  | fuel + 1, s => do
      let s ← s.approach?
      if s.cursor.rest.isEmpty then
        let s ← (s.unroll (-1)).dropKey?
        return s.tokens.reverse
      else
        let s ← s.token?
        run? fuel s

end Lexer

/-- The tokens of a text.  Every token takes at least one character. -/
def tokens? (text : List Char) : Option (List Token) :=
  if text.all isAllowed then (Lexer.start text).run? (text.length + 1) else none

end Workflows.Yaml
