import Workflows.Proofs.Document.Items

/-!
# Tasks that are done

A bullet with a cross in the box behind it marks a task that is done.  Where
something stands behind the box the line is passed over wherever it is in a
text.  Where the box ends the line it is taken for the name of a step.
-/

namespace Workflows.Document

open Text

/-- A task that is done: behind the box stands a blank, or nothing. -/
structure CheckedTask where
  indent : List Char
  bullet : Char
  gap : List Char
  cross : Char
  rest : List Char
  isBlank_indent : ∀ c ∈ indent, isBlank c = true
  isBullet_bullet : isBullet bullet = true
  gap_ne_nil : gap ≠ []
  isBlank_gap : ∀ c ∈ gap, isBlank c = true
  cross_eq : cross = 'x' ∨ cross = 'X'
  isBlank_rest : ∀ c ∈ rest.head?, isBlank c = true

namespace CheckedTask

variable (t : CheckedTask)

def box : List Char := ['[', t.cross, ']']

def line : List Char := t.indent ++ t.bullet :: (t.gap ++ (t.box ++ t.rest))

theorem isFence_line : isFence t.line = false :=
  isFence_of_isBullet t.isBlank_indent t.isBullet_bullet _

theorem afterBulletBlanks?_line :
    afterBulletBlanks? t.line = some (t.box ++ t.rest) := by
  have hstart : trimStart (t.box ++ t.rest) = t.box ++ t.rest :=
    trimStart_eq_self (by decide)
  rw [line,
    afterBulletBlanks?_indented t.isBlank_indent t.isBullet_bullet t.gap_ne_nil
    t.isBlank_gap, hstart]

theorem isChecked_line (h : t.rest ≠ []) : isChecked t.line = true := by
  obtain ⟨c, rest, hrest⟩ := List.exists_cons_of_ne_nil h
  have hc : isBlank c = true := t.isBlank_rest c (by simp [hrest])
  rw [isChecked, t.afterBulletBlanks?_line, hrest, box]
  rcases t.cross_eq with hcross | hcross <;> rw [hcross] <;> exact hc

theorem itemText?_box : itemText? (t.gap ++ t.box) = some t.box := by
  rw [box, itemText?_append t.gap_ne_nil t.isBlank_gap (by decide)]
  rcases t.cross_eq with hcross | hcross <;> rw [hcross] <;> decide

/-- Without a blank behind it the box is not seen to be one, and the bullet is
left. -/
theorem itemName?_line_of_rest_eq_nil (h : t.rest = []) :
    itemName? t.line = some t.box := by
  have hbox := t.afterBulletBlanks?_line
  have hnumber : numbered? t.line = none :=
    numbered?_of_isBullet t.isBlank_indent t.isBullet_bullet _
  have hbullet : bullet? t.line = some t.box := by
    rw [bullet?, line, afterBullet?_indented t.isBlank_indent t.isBullet_bullet,
      h, List.append_nil]
    exact t.itemText?_box
  rw [h, box] at hbox
  rcases t.cross_eq with hcross | hcross <;> rw [hcross] at hbox <;>
    simp [itemName?, isChecked, unchecked?, hbox, hnumber, hbullet]

theorem itemName?_line :
    itemName? t.line = if t.rest = [] then some t.box else none := by
  split
  · next h => exact t.itemName?_line_of_rest_eq_nil h
  · next h => simp [itemName?, t.isChecked_line h]

end CheckedTask

section Around

variable {t : CheckedTask} {before after : List (List Char)}

theorem itemNames_middle {line : List Char} (hfence : isFence line = false) :
    itemNames false (before ++ line :: after) = itemNames false before ++
      (namesOn (fencedBehind false before) line ++
        itemNames (fencedBehind false before) after) := by
  simp [itemNames_append, itemNames_cons, hfence]

theorem namesOn_checkedTask (t : CheckedTask) (fenced : Bool) :
    namesOn fenced t.line = if t.rest = [] ∧ fenced = false then [t.box]
      else [] := by
  cases fenced <;> by_cases h : t.rest = [] <;>
    simp [namesOn, t.isFence_line, t.itemName?_line, h]

/-- A task that is done gives no step to a text exactly where something stands
behind its box or it is inside a fence; else its box is the name of a step. -/
theorem checked_task_passed_iff {text : List Char}
    (hlines : lines text = before ++ t.line :: after) :
    ((proseSteps text).map (·.name.toList) = itemNames false (before ++ after) ↔
      t.rest ≠ [] ∨ ¬ Even (before.countP isFence)) ∧
    (t.rest = [] → Even (before.countP isFence) →
      (proseSteps text).map (·.name.toList) =
      itemNames false before ++ t.box :: itemNames false after) := by
  rw [names_proseSteps, hlines, itemNames_middle t.isFence_line,
    namesOn_checkedTask, itemNames_append]
  by_cases heven : Even (before.countP isFence) <;> by_cases hrest :
    t.rest = [] <;>
    simp [fencedBehind, heven, hrest]

end Around

def taskWith (rest : List Char) (h : ∀ c ∈ rest.head?, isBlank c = true) :
    CheckedTask where
  indent := []
  bullet := '-'
  gap := [' ']
  cross := 'x'
  rest := rest
  isBlank_indent := by simp
  isBullet_bullet := by decide
  gap_ne_nil := by decide
  isBlank_gap := List.forall_mem_singleton.mpr rfl
  cross_eq := .inl rfl
  isBlank_rest := h

theorem checked_task_passed_iff_twoTasks :
    let done := taskWith (' ' :: "done".toList) (by simp [isBlank])
    let text := "1. First\n- [x] done\n- [x]\n".toList
    lines text = ["1. First".toList] ++ done.line :: ["- [x]".toList] ∧
      (proseSteps text).map (·.name.toList) =
        itemNames false ["1. First".toList, "- [x]".toList] ∧
      (proseSteps text).map (·.name.toList) = ["First".toList] ++
        ["[x]".toList] := by
  intro done text
  have hfirst : lines text = ["1. First".toList] ++ done.line ::
      ["- [x]".toList] := by decide
  have hsecond : lines text =
      ["1. First".toList, "- [x] done".toList] ++
        (taskWith [] (by simp)).line :: [] := by
    decide
  refine ⟨hfirst, ?_, ?_⟩
  · exact (checked_task_passed_iff hfirst).1.mpr (.inl (by decide))
  · exact (checked_task_passed_iff hsecond).2 rfl (by decide)

/-- A task whose box ends the line is a step. -/
theorem checked_task_not_passed :
    ¬ ∀ (t : CheckedTask) (text : List Char) (before after : List (List Char)),
      lines text = before ++ t.line :: after →
      (proseSteps text).map (·.name.toList) = itemNames false
        (before ++ after) := by
  intro h
  have hnames := h (taskWith [] (by simp)) "- [x]\n".toList [] [] (by decide)
  rw [names_proseSteps] at hnames
  exact absurd hnames (by decide)

end Workflows.Document
