/-!
Indented lines of a diagram's text, two blanks for each level.
-/

namespace Workflows

/-- The lines written so far, the newest first, and the level of the next
one. -/
structure IndentedText where
  lines : List String
  level : Nat
  deriving DecidableEq, Repr

namespace IndentedText

def empty : IndentedText := ⟨[], 0⟩

def indentation (level : Nat) : String :=
  String.ofList (List.replicate (2 * level) ' ')

def line (w : IndentedText) (text : String) : IndentedText :=
  { w with lines := (indentation w.level ++ text) :: w.lines }

def indent (w : IndentedText) : IndentedText := { w with level := w.level + 1 }

def outdent (w : IndentedText) : IndentedText := { w with level := w.level - 1 }

def openBlock (w : IndentedText) (text : String) : IndentedText :=
  (w.line (text ++ " \x7b")).indent

def closeBlock (w : IndentedText) : IndentedText := w.outdent.line "\x7d"

def addLines (w : IndentedText) (texts : List String) : IndentedText :=
  texts.foldl line w

def text (w : IndentedText) : String :=
  String.join (w.lines.reverse.map fun l => l ++ "\n")

@[simp] theorem lines_line (w : IndentedText) (t : String) :
    (w.line t).lines = (indentation w.level ++ t) :: w.lines := rfl

@[simp] theorem level_line (w : IndentedText) (t : String) :
    (w.line t).level = w.level := rfl

theorem level_addLines (w : IndentedText) (ts : List String) :
    (w.addLines ts).level = w.level := by
  induction ts generalizing w with
  | nil => rfl
  | cons t ts ih => exact (ih (w.line t)).trans (level_line w t)

theorem lines_addLines (w : IndentedText) (ts : List String) :
    (w.addLines ts).lines =
      (ts.map fun t => indentation w.level ++ t).reverse ++ w.lines := by
  induction ts generalizing w with
  | nil => rfl
  | cons t ts ih =>
      have step :
          (w.addLines (t :: ts)).lines = ((w.line t).addLines ts).lines := rfl
      rw [step, ih]
      simp

end IndentedText

end Workflows
