import Workflows.Text.Blank

/-!
Lines of a text.  A line ends at a line feed, and a carriage return just before
that line feed belongs to the ending; a last line without a line feed keeps what
it has.
-/

namespace Workflows.Text

/-- The content of a line whose characters stand in `reversed` order before a
line feed. -/
def endedLine (reversed : List Char) : List Char :=
  match reversed with
  | '\r' :: rest => rest.reverse
  | rest => rest.reverse

/-- Splits the rest of a text, `reversed` being what the current line holds so
far. -/
def linesFrom (reversed : List Char) : List Char → List (List Char)
  | [] => if reversed.isEmpty then [] else [reversed.reverse]
  | c :: rest =>
      if c = '\n' then endedLine reversed :: linesFrom [] rest
      else linesFrom (c :: reversed) rest

def lines (text : List Char) : List (List Char) := linesFrom [] text

def joinLines (ls : List (List Char)) : List Char := List.intercalate ['\n'] ls

@[simp] theorem lines_nil : lines [] = [] := rfl

theorem linesFrom_newline (reversed rest : List Char) :
    linesFrom reversed ('\n' :: rest) = endedLine reversed ::
      linesFrom [] rest := by
  simp [linesFrom]

theorem joinLines_cons {line : List Char} {ls : List (List Char)}
    (h : ls ≠ []) :
    joinLines (line :: ls) = line ++ '\n' :: joinLines ls := by
  obtain ⟨next, ls, rfl⟩ := List.exists_cons_of_ne_nil h
  simp [joinLines, List.intercalate]

end Workflows.Text
