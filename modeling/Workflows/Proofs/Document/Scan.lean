import Workflows.Proofs.Document.Fences

/-!
# Scanning line after line

From one line to the next the scan of a text takes along whether it stands
inside a fence, and the steps so far, which give the next one its number.  So
behind a text that leaves no fence open the steps of another text follow as they
are, under the next numbers.
-/

namespace Workflows.Document

open Text

structure Scan where
  fenced : Bool
  steps : List Step

def numberedFrom (first : Nat) (names : List (List Char)) : List Step :=
  names.mapIdx fun i name =>
    Step.ofName (stepId (first + i)) (String.ofList name)

def renumberedFrom (first : Nat) (steps : List Step) : List Step :=
  steps.mapIdx fun i s => { s with id := stepId (first + i) }

namespace Scan

def start : Scan := ⟨false, []⟩

def add (s : Scan) (name : List Char) : Scan :=
  { s with
    steps :=
      s.steps ++ [Step.ofName (stepId s.steps.length) (String.ofList name)] }

/-- A fence turns the scan off or on again, and an item outside fences is the
next step. -/
def read (s : Scan) (line : List Char) : Scan :=
  if isFence line then { s with fenced := !s.fenced }
  else if s.fenced then s
  else
    match itemName? line with
    | some name => s.add name
    | none => s

def readAll (s : Scan) (ls : List (List Char)) : Scan := ls.foldl read s

end Scan

section Numbers

variable (first other : Nat) (names more : List (List Char))

theorem numberedFrom_append :
    numberedFrom first (names ++ more) =
      numberedFrom first names ++ numberedFrom (first + names.length) more := by
  have hnext (i : Nat) : first + (i + names.length) = first + names.length +
      i := by omega
  simp [numberedFrom, List.mapIdx_append, hnext]

theorem length_numberedFrom :
    (numberedFrom first names).length = names.length := by
  simp [numberedFrom]

theorem renumberedFrom_numberedFrom :
    renumberedFrom first (numberedFrom other names) =
      numberedFrom first names := by
  simp [renumberedFrom, numberedFrom, List.mapIdx_mapIdx,
    Step.ofName, Function.comp_def]

theorem proseSteps_eq_numberedFrom (text : List Char) :
    proseSteps text = numberedFrom 0 (itemNames false (lines text)) := by
  simp [proseSteps, numberedFrom]

end Numbers

/-! ## Line after line -/

namespace Scan

variable (s : Scan) (line : List Char) (ls before after : List (List Char))

theorem fenced_read : (s.read line).fenced = (s.fenced ^^ isFence line) := by
  unfold read add
  cases isFence line <;> cases hfenced : s.fenced <;> cases itemName? line <;>
    simp [hfenced]

theorem steps_read :
    (s.read line).steps = s.steps ++ numberedFrom s.steps.length
      (namesOn s.fenced line) := by
  unfold read add namesOn
  cases isFence line <;> cases s.fenced <;> cases itemName? line <;>
    simp [numberedFrom]

theorem fenced_readAll : (s.readAll ls).fenced = fencedBehind s.fenced ls := by
  induction ls generalizing s with
  | nil => simp [readAll]
  | cons line ls ih =>
      change ((s.read line).readAll ls).fenced = _
      rw [ih, fenced_read, fencedBehind_cons]

theorem steps_readAll :
    (s.readAll ls).steps = s.steps ++ numberedFrom s.steps.length
      (itemNames s.fenced ls) := by
  induction ls generalizing s with
  | nil => simp [readAll, itemNames, numberedFrom]
  | cons line ls ih =>
      change ((s.read line).readAll ls).steps = _
      rw [ih, fenced_read, steps_read, itemNames_cons, numberedFrom_append,
        List.length_append, length_numberedFrom, List.append_assoc]

theorem readAll_append :
    s.readAll (before ++ after) = (s.readAll before).readAll after :=
  List.foldl_append

theorem steps_readAll_start (text : List Char) :
    (start.readAll (lines text)).steps = proseSteps text := by
  rw [steps_readAll, proseSteps_eq_numberedFrom]
  rfl

end Scan

/-! ## Text after text -/

section Texts

variable {before : List Char} (hends : ∀ c ∈ before.getLast?, c = '\n')

include hends

theorem proseSteps_append (after : List Char) :
    proseSteps (before ++ after) = proseSteps before ++
      numberedFrom (proseSteps before).length
        (itemNames (fencedBehind false (lines before)) (lines after)) := by
  rw [← Scan.steps_readAll_start, lines_append hends, Scan.readAll_append,
    Scan.steps_readAll, Scan.fenced_readAll, Scan.steps_readAll_start]
  rfl

/-- Behind a text that ends its last line, the steps of every text follow with
nothing but their numbers changed exactly where the fences before them come in
pairs. -/
theorem proseSteps_append_iff :
    (∀ after, proseSteps (before ++ after) = proseSteps before ++
      renumberedFrom (proseSteps before).length (proseSteps after)) ↔
    Even ((lines before).countP isFence) := by
  constructor
  · intro h
    by_contra hodd
    -- a step behind an open fence is lost
    have hstep := h ['-', ' ', 'y']
    rw [proseSteps_append hends, fencedBehind, if_neg hodd] at hstep
    have hlength := congrArg List.length (List.append_cancel_left hstep)
    rw [length_numberedFrom, renumberedFrom, List.length_mapIdx] at hlength
    exact absurd hlength (by decide)
  · intro heven after
    rw [proseSteps_append hends, fencedBehind_of_even heven,
      proseSteps_eq_numberedFrom after, renumberedFrom_numberedFrom]

end Texts

theorem proseSteps_append_iff_twoParts :
    let before :=
      "1. First\n\x60\x60\x60\n- code\n\x60\x60\x60\n* Second\r\n".toList
    (∀ c ∈ before.getLast?, c = '\n') ∧ Even ((lines before).countP isFence) ∧
      ∀ after, proseSteps (before ++ after) = proseSteps before ++
        renumberedFrom 2 (proseSteps after) := by
  intro before
  have hlast : before.getLast? = some '\n' := by decide
  have hends : ∀ c ∈ before.getLast?, c = '\n' := by simp [hlast]
  have heven : Even ((lines before).countP isFence) := by decide
  exact ⟨hends, heven, (proseSteps_append_iff hends).mpr heven⟩

end Workflows.Document
