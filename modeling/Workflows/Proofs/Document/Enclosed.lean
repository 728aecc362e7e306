import Workflows.Proofs.Document.FrontMatter
import Workflows.Proofs.Text.Lines
import Workflows.Proofs.Yaml.Blank

/-!
# Structured documents as front matter

A structured document between two delimiters is a Markdown document without a
body.  Both formats read the same workflow from it: the lines of the front
matter are joined to the text that they were split from, and an empty body has
neither a heading nor steps.
-/

namespace Workflows

open Text

/-! ## Lines -/

namespace Text

variable {reversed text : List Char}

theorem endedLine_eq (h : '\r' ∉ reversed) :
    endedLine reversed = reversed.reverse := by
  unfold endedLine
  split
  · simp at h
  · rfl

theorem linesFrom_eq_nil_iff :
    linesFrom reversed text = [] ↔ reversed = [] ∧ text = [] := by
  induction text generalizing reversed with
  | nil => cases reversed <;> simp [linesFrom]
  | cons c text ih =>
      by_cases hc : c = '\n'
      · simp [hc, linesFrom_newline]
      · simp [linesFrom, hc, ih]

section EndOfText

variable {c : Char} {rest : List Char}

theorem ne_nil_of_newline (h : ('\n' :: rest).getLast? ≠ some '\n') :
    rest ≠ [] := by
  rintro rfl
  exact h rfl

theorem getLast?_ne_of_cons (h : (c :: rest).getLast? ≠ some '\n') :
    rest.getLast? ≠ some '\n' := by
  cases rest with
  | nil => simp
  | cons d rest => simpa using h

end EndOfText

theorem joinLines_linesFrom (hreversed : '\r' ∉ reversed) (htext : '\r' ∉ text)
    (hend : text.getLast? ≠ some '\n') :
    joinLines (linesFrom reversed text) = reversed.reverse ++ text := by
  induction text generalizing reversed with
  | nil => cases reversed <;> simp [linesFrom, joinLines, List.intercalate]
  | cons c rest ih =>
      obtain ⟨hc, hrest⟩ : '\r' ≠ c ∧ '\r' ∉ rest := by simpa using htext
      have hlast := getLast?_ne_of_cons hend
      by_cases hbreak : c = '\n'
      · subst hbreak
        have hlines : linesFrom [] rest ≠ [] := by
          simp [linesFrom_eq_nil_iff, ne_nil_of_newline hend]
        rw [linesFrom_newline, endedLine_eq hreversed, joinLines_cons hlines,
          ih List.not_mem_nil hrest hlast]
        rfl
      · have hheld : '\r' ∉ c :: reversed := by simp [hc, hreversed]
        rw [linesFrom, if_neg hbreak, ih hheld hrest hlast]
        simp

theorem linesFrom_append_newline (hreversed : '\r' ∉ reversed)
    (htext : '\r' ∉ text) (hend : text.getLast? ≠ some '\n')
    (hbegun : reversed ≠ [] ∨ text ≠ []) (rest : List Char) :
    linesFrom reversed (text ++ '\n' :: rest) =
      linesFrom reversed text ++ lines rest := by
  induction text generalizing reversed with
  | nil =>
      have hne : reversed ≠ [] := by simpa using hbegun
      simp [linesFrom, endedLine_eq hreversed, hne, lines]
  | cons c text ih =>
      obtain ⟨hc, hmore⟩ : '\r' ≠ c ∧ '\r' ∉ text := by simpa using htext
      have hlast := getLast?_ne_of_cons hend
      by_cases hbreak : c = '\n'
      · subst hbreak
        rw [List.cons_append, linesFrom_newline, linesFrom_newline,
          ih List.not_mem_nil hmore hlast (.inr (ne_nil_of_newline hend))]
        rfl
      · have hheld : '\r' ∉ c :: reversed := by simp [hc, hreversed]
        simp [linesFrom, hbreak,
          ih hheld hmore hlast (.inl (List.cons_ne_nil c reversed))]

end Text

namespace Document

/-! ## Between two delimiters -/

def delimiterLine : List Char := ['-', '-', '-', '\n']

/-- A text between two delimiters, each of the three with the break after it. -/
def enclosed (text : List Char) : List Char :=
  delimiterLine ++ (text ++ '\n' :: delimiterLine)

variable {text : List Char}

theorem lines_enclosed (htext : '\r' ∉ text) (hend : text.getLast? ≠ some '\n')
    (hne : text ≠ []) :
    lines (enclosed text) = ['-', '-', '-'] ::
      (lines text ++ [['-', '-', '-']]) := by
  have hinner : lines (text ++ '\n' :: delimiterLine) = lines text ++
      lines delimiterLine :=
    linesFrom_append_newline List.not_mem_nil htext hend (.inr hne)
      delimiterLine
  calc lines (enclosed text)
      = ['-', '-', '-'] :: lines (text ++ '\n' :: delimiterLine) := rfl
    _ = ['-', '-', '-'] :: (lines text ++ [['-', '-', '-']]) := by
      rw [hinner]; rfl

theorem hasFront_enclosed (htext : '\r' ∉ text)
    (hend : text.getLast? ≠ some '\n') (hne : text ≠ [])
    (hclosers : ∀ line ∈ lines text, isCloser line = false) :
    HasFront (enclosed text) (lines text) [] := by
  have hlines : contentLines (enclosed text) =
      ['-', '-', '-'] :: (lines text ++ ['-', '-', '-'] :: []) := by
    have hmark : (enclosed text).dropWhile isByteOrderMark = enclosed text :=
      rfl
    have htrim : (trim ['-', '-', '-']).isEmpty = false := by decide
    rw [contentLines, hmark, lines_enclosed htext hend hne,
      List.dropWhile_cons_of_neg (by simp [htrim])]
  exact ⟨hlines, by decide, by decide, hclosers⟩

/-- A mapping between two delimiters is the same document as the mapping
alone. -/
theorem formats_agree {fields : List (String × Json)} (htext : '\r' ∉ text)
    (hend : text.getLast? ≠ some '\n')
    (hclosers : ∀ line ∈ lines text, isCloser line = false)
    (hread : Yaml.read? text = some (.obj fields)) :
    readMarkdown (enclosed text) = readStructured text ∧
      readStructured text = .ok (workflowOf fields none) := by
  have hwritten : trim text ≠ [] := fun hblank =>
    Yaml.isAtom_of_read?_blank (blank_of_trim_eq_nil hblank) hread
  have hne : text ≠ [] := by
    rintro rfl
    exact hwritten rfl
  have hjoined : joinLines (lines text) = text :=
    joinLines_linesFrom List.not_mem_nil htext hend
  have hfront : frontMapping (some text) = .ok fields := by
    rw [frontMapping, hread, if_neg (by simpa using hwritten)]
  have hstructured : readStructured text = .ok (workflowOf fields none) := by
    rw [readStructured, hread]
  have hmarkdown :
      readMarkdown (enclosed text) = .ok (workflowOf fields none) := by
    rw [readMarkdown, (hasFront_enclosed htext hend hne hclosers).split,
      hjoined]
    change (frontMapping (some text) >>= _) = _
    rw [hfront]
    rfl
  exact ⟨hmarkdown.trans hstructured.symm, hstructured⟩

theorem formats_agree_oneStep :
    let text := "name: A\nsteps:\n  - one".toList
    ∃ fields, '\r' ∉ text ∧ text.getLast? ≠ some '\n' ∧
      (∀ line ∈ lines text, isCloser line = false) ∧ Yaml.read? text =
        some (.obj fields) ∧
      readMarkdown (enclosed text) = readStructured text ∧
      readStructured text = .ok (workflowOf fields none) := by
  intro text
  have hreturn : '\r' ∉ text := by decide
  have hend : text.getLast? ≠ some '\n' := by decide
  have hclosers : ∀ line ∈ lines text, isCloser line = false := by decide
  have hstructured : isStructured text = true := by decide +kernel
  obtain ⟨fields, hread⟩ := exists_read_of_isStructured hstructured
  exact ⟨fields, hreturn, hend, hclosers, hread,
    formats_agree hreturn hend hclosers hread⟩

end Document

end Workflows
