import Workflows.Yaml.Cursor

/-!
Plain scalars.  A plain scalar goes on over blanks and line breaks, which fold,
until a comment, a colon before a blank, a bound of the document, or a line that
is not indented deeper than its parent; inside brackets and braces these and
commas end it as well.
-/

namespace Workflows.Yaml

def isFlowIndicator (c : Char) : Bool :=
  c == ',' || c == '[' || c == ']' || c == '{' || c == '}'

def plainRun? (flow : Bool) : List Char → Option (List Char × List Char)
  | [] => some ([], [])
  | c :: rest =>
      let indicatorFollows : Bool :=
        match rest with
        | next :: _ => isFlowIndicator next || next == '?'
        | [] => false
      if isSpace c || isBreak c then some ([], c :: rest)
      else if flow && c == ':' && indicatorFollows then none
      else if (c == ':' && endsWord rest) || (flow && isFlowIndicator c) then
        some ([], c :: rest)
      else do
        let (run, rest) ← plainRun? flow rest
        return (c :: run, rest)

/-- Reads on after `gap`; the result tells whether a break was passed after the
last character. -/
def plain? (flow : Bool) (indent : Int) :
    Nat → Gap → Cursor → Option ((List Char × Bool) × Cursor)
  | 0, _, _ => none
  | fuel + 1, gap, c =>
      if c.atDocumentMark || c.startsWith (· == '#') then
        some (([], gap.broken), c)
      else do
        let (run, rest) ← plainRun? flow c.rest
        if run.isEmpty then some (([], gap.broken), c)
        else
          let text := gap.folded ++ run
          let (gap, c) ← Gap.read? (rest.length + 1) indent Gap.empty
            (c.moveTo rest)
          if !flow && decide ((c.column : Int) < indent) then
            some ((text, gap.broken), c)
          else
            let ((more, broken), c) ← plain? flow indent fuel gap c
            return ((text ++ more, broken), c)

end Workflows.Yaml
