import Workflows.Proofs.Document.FrontMatter
import Workflows.Proofs.Text.Lines

/-!
# Front matter as it is written

A text with front matter may start with byte order marks and blank lines, pad
its two delimiters, close with hyphens or points and end each line in either of
two ways.  Splitting gives back the lines that it was written from.  Of any
text, what is split off in front holds no closer, and only an opener that
nothing closes is refused.
-/

namespace Workflows.Document

open Text

/-! ## Written lines -/

inductive LineEnd where
  | feed
  | returnFeed
  deriving DecidableEq, Repr

namespace LineEnd

def chars : LineEnd → List Char
  | feed => ['\n']
  | returnFeed => ['\r', '\n']

def returned : LineEnd → List Char
  | feed => []
  | returnFeed => ['\r']

theorem chars_eq (e : LineEnd) : e.chars = e.returned ++ ['\n'] := by
  cases e <;> rfl

theorem isBlank_of_mem_returned {e : LineEnd} :
    ∀ c ∈ e.returned, isBlank c = true := by
  cases e with
  | feed => simp [returned]
  | returnFeed =>
      simp only [returned, List.mem_singleton, forall_eq]
      decide

theorem newline_notMem_returned (e : LineEnd) : '\n' ∉ e.returned := by
  cases e <;> simp [returned]

end LineEnd

structure IsPadding (s : List Char) : Prop where
  blank : ∀ c ∈ s, isBlank c = true
  newline_notMem : '\n' ∉ s

/-- A line that can be told from the end behind it. -/
structure IsContent (s : List Char) : Prop where
  newline_notMem : '\n' ∉ s
  last_ne_return : s.getLast? ≠ some '\r'

instance (s : List Char) : Decidable (IsPadding s) :=
  decidable_of_iff (s.all isBlank = true ∧ '\n' ∉ s)
    ⟨fun h => ⟨List.all_eq_true.mp h.1, h.2⟩,
      fun h => ⟨List.all_eq_true.mpr h.blank, h.newline_notMem⟩⟩

instance (s : List Char) : Decidable (IsContent s) :=
  decidable_of_iff ('\n' ∉ s ∧ s.getLast? ≠ some '\r')
    ⟨fun h => ⟨h.1, h.2⟩, fun h => ⟨h.newline_notMem, h.last_ne_return⟩⟩

structure Row where
  content : List Char
  ending : LineEnd
  deriving DecidableEq, Repr

namespace Row

def text (row : Row) : List Char := row.content ++ row.ending.chars

def line (row : Row) : List Char := row.content ++ row.ending.returned

variable {row : Row} {rows : List Row}

theorem text_eq (row : Row) : row.text = row.line ++ ['\n'] := by
  simp [text, line, LineEnd.chars_eq]

theorem newline_notMem_line (h : '\n' ∉ row.content) : '\n' ∉ row.line := by
  simp [line, h, LineEnd.newline_notMem_returned]

theorem withoutReturn_line (h : IsContent row.content) :
    withoutReturn row.line = row.content := by
  obtain ⟨content, ending⟩ := row
  cases ending with
  | feed =>
      simpa [line, LineEnd.returned] using withoutReturn_eq_self
        h.last_ne_return
  | returnFeed => exact withoutReturn_concat content

theorem trimEnd_withoutReturn_line (row : Row) :
    trimEnd (withoutReturn row.line) = trimEnd row.content := by
  rw [trimEnd_withoutReturn, line,
    trimEnd_append_of_blank LineEnd.isBlank_of_mem_returned]

theorem trim_withoutReturn_line (h : IsPadding row.content) :
    trim (withoutReturn row.line) = [] := by
  apply trim_eq_nil_of_blank
  intro c hc
  rcases List.mem_append.mp (mem_of_mem_withoutReturn hc) with hc | hc
  · exact h.blank c hc
  · exact LineEnd.isBlank_of_mem_returned c hc

theorem lines_flatMap_text (h : ∀ row ∈ rows, '\n' ∉ row.content) :
    lines (rows.flatMap text) = rows.map fun row => withoutReturn row.line := by
  have htext :
      rows.flatMap text = (rows.map line).flatMap (· ++ ['\n']) ++ [] := by
    simp [List.flatMap_map, ← text_eq]
  have hlines : ∀ written ∈ rows.map line, '\n' ∉ written := by
    rw [List.forall_mem_map]
    exact fun row hrow => newline_notMem_line (h row hrow)
  rw [htext, lines_flatMap_append hlines]
  simp

theorem map_withoutReturn_line (h : ∀ row ∈ rows, IsContent row.content) :
    (rows.map fun row => withoutReturn row.line) = rows.map content :=
  List.map_congr_left fun row hrow => withoutReturn_line (h row hrow)

end Row

/-! ## Layouts -/

/-- How a text with front matter is written.  The lines in front hold no closer;
all else that is free to choose makes no difference to what is read. -/
structure Layout where
  marks : Nat
  blankRows : List Row
  openerPadding : List Char
  openerEnd : LineEnd
  front : List Row
  closer : List Char
  closerPadding : List Char
  closerEnd : LineEnd
  body : List Row
  isPadding_blankRows : ∀ row ∈ blankRows, IsPadding row.content
  isPadding_opener : IsPadding openerPadding
  isContent_front : ∀ row ∈ front, IsContent row.content
  not_isCloser_front : ∀ row ∈ front, isCloser row.content = false
  closer_eq : closer = ['-', '-', '-'] ∨ closer = ['.', '.', '.']
  isPadding_closer : IsPadding closerPadding
  isContent_body : ∀ row ∈ body, IsContent row.content

theorem trim_isEmpty_of_isOpener {line : List Char} (h : isOpener line = true) :
    (trim line).isEmpty = false := by
  rw [Bool.eq_false_iff, ne_eq, List.isEmpty_iff]
  intro hblank
  have hend : trimEnd line = [] := by
    simpa using trimEnd_append_of_blank (blank_of_trim_eq_nil hblank) []
  simp [isOpener, hend] at h

namespace Layout

variable (l : Layout)

def opener : Row := ⟨['-', '-', '-'] ++ l.openerPadding, l.openerEnd⟩

def closerRow : Row := ⟨l.closer ++ l.closerPadding, l.closerEnd⟩

def rows : List Row :=
  l.blankRows ++ l.opener :: (l.front ++ l.closerRow :: l.body)

def text : List Char :=
  List.replicate l.marks '\ufeff' ++ l.rows.flatMap Row.text

theorem isOpener_opener : isOpener (withoutReturn l.opener.line) = true := by
  rw [isOpener, Row.trimEnd_withoutReturn_line, opener,
    trimEnd_append_of_blank l.isPadding_opener.blank]
  decide

theorem isCloser_closerRow :
    isCloser (withoutReturn l.closerRow.line) = true := by
  rw [isCloser, Row.trimEnd_withoutReturn_line, closerRow,
    trimEnd_append_of_blank l.isPadding_closer.blank]
  rcases l.closer_eq with h | h <;> rw [h] <;> decide

theorem newline_notMem_rows : ∀ row ∈ l.rows, '\n' ∉ row.content := by
  have hopener : '\n' ∉ l.opener.content := by
    simp [opener, l.isPadding_opener.newline_notMem]
  have hcloser : '\n' ∉ l.closerRow.content := by
    rcases l.closer_eq with h | h <;>
      simp [closerRow, h, l.isPadding_closer.newline_notMem]
  rw [rows, List.forall_mem_append, List.forall_mem_cons,
    List.forall_mem_append, List.forall_mem_cons]
  exact ⟨fun row hrow => (l.isPadding_blankRows row hrow).newline_notMem,
    hopener, fun row hrow => (l.isContent_front row hrow).newline_notMem,
    hcloser, fun row hrow => (l.isContent_body row hrow).newline_notMem⟩

theorem dropWhile_isByteOrderMark_text :
    l.text.dropWhile isByteOrderMark = l.rows.flatMap Row.text := by
  have hmarks : ∀ c ∈ List.replicate l.marks '\ufeff',
      isByteOrderMark c = true := by
    intro c hc
    rw [List.eq_of_mem_replicate hc]
    rfl
  rw [text, List.dropWhile_append_of_pos hmarks, rows]
  cases hrows : l.blankRows with
  | nil => rfl
  | cons row more =>
      have hpadding : IsPadding row.content :=
        l.isPadding_blankRows row (by simp [hrows])
      cases hcontent : row.content with
      | nil =>
          cases hending : row.ending <;> simp [Row.text, hcontent, hending,
            LineEnd.chars, isByteOrderMark]
      | cons c content =>
          have hblank : isBlank c = true :=
            hpadding.blank c (by simp [hcontent])
          have hmark : isByteOrderMark c = false := by
            apply beq_false_of_ne
            rintro rfl
            cases hblank
          simp [Row.text, hcontent, hmark]

theorem contentLines_text :
    contentLines l.text = withoutReturn l.opener.line ::
      (l.front.map Row.content ++ withoutReturn l.closerRow.line ::
        l.body.map Row.content) := by
  have hblank : ∀ line ∈ l.blankRows.map fun row => withoutReturn row.line,
      (trim line).isEmpty = true := by
    rw [List.forall_mem_map]
    intro row hrow
    rw [Row.trim_withoutReturn_line (l.isPadding_blankRows row hrow)]
    rfl
  have hopener : (trim (withoutReturn l.opener.line)).isEmpty = false :=
    trim_isEmpty_of_isOpener l.isOpener_opener
  rw [contentLines, dropWhile_isByteOrderMark_text,
    Row.lines_flatMap_text l.newline_notMem_rows, rows, List.map_append,
    List.dropWhile_append_of_pos hblank, List.map_cons,
    List.dropWhile_cons_of_neg (by simp [hopener]), List.map_append,
    List.map_cons, Row.map_withoutReturn_line l.isContent_front,
    Row.map_withoutReturn_line l.isContent_body]

theorem hasFront_text :
    HasFront l.text (l.front.map Row.content) (l.body.map Row.content) := by
  refine ⟨l.contentLines_text, l.isOpener_opener, l.isCloser_closerRow, ?_⟩
  rw [List.forall_mem_map]
  exact l.not_isCloser_front

end Layout

/-! ## Splitting -/

section Split

variable {text : List Char} {parts : Parts}

theorem neverClosed_iff :
    NeverClosed text ↔ opensFrontMatter text = true ∧
      ∀ line ∈ (contentLines text).drop 1, isCloser line = false := by
  constructor
  · intro h
    refine ⟨h.opens, ?_⟩
    obtain ⟨hlines, -, hinner⟩ := h
    simpa [hlines] using hinner
  · rintro ⟨hopens, hinner⟩
    cases hlines : contentLines text with
    | nil => simp [opensFrontMatter, hlines] at hopens
    | cons opener inner =>
        have hopener : isOpener opener = true := by
          simpa [opensFrontMatter, hlines] using hopens
        exact ⟨hlines, hopener, by simpa [hlines] using hinner⟩

theorem split_cases (text : List Char) :
    (opensFrontMatter text = false ∧ split text = .ok ⟨none, text⟩) ∨
      (NeverClosed text ∧ split text = .error .unterminatedFrontMatter) ∨
      ∃ front body, HasFront text front body ∧
        split text = .ok ⟨some (joinLines front), joinLines body⟩ := by
  cases hopens : opensFrontMatter text with
  | false => exact .inl ⟨rfl, split_of_not_opens hopens⟩
  | true =>
      rcases neverClosed_or_hasFront hopens with h | ⟨front, body, h⟩
      · exact .inr (.inl ⟨h, h.split⟩)
      · exact .inr (.inr ⟨front, body, h, h.split⟩)

theorem split_eq_error_iff {e : DocumentError} :
    split text = .error e ↔ e.code = "P001" ∧ NeverClosed text := by
  have hcode : e.code = "P001" ↔ e = .unterminatedFrontMatter := by
    cases e <;> simp [DocumentError.code]
  rw [hcode]
  constructor
  · intro hsplit
    rcases split_cases text with ⟨-, h⟩ | ⟨hopen, h⟩ | ⟨front, body, -, h⟩
    · rw [hsplit] at h
      cases h
    · rw [hsplit] at h
      cases h
      exact ⟨rfl, hopen⟩
    · rw [hsplit] at h
      cases h
  · rintro ⟨rfl, hopen⟩
    exact hopen.split

theorem newline_notMem_of_mem_contentLines {line : List Char}
    (h : line ∈ contentLines text) : '\n' ∉ line := by
  have hline : line ∈ lines (text.dropWhile isByteOrderMark) :=
    (List.dropWhile_suffix fun l => (trim l).isEmpty).subset h
  exact newline_notMem_of_mem_linesFrom List.not_mem_nil line hline

theorem isCloser_withoutReturn (line : List Char) :
    isCloser (withoutReturn line) = isCloser line := by
  rw [isCloser, trimEnd_withoutReturn, isCloser]

theorem HasFront.not_isCloser {front body : List (List Char)}
    (h : HasFront text front body) :
    ∀ line ∈ lines (joinLines front), isCloser line = false := by
  obtain @⟨opener, closer, hlines, -, -, hfront⟩ := h
  have hbreak : ∀ line ∈ front, '\n' ∉ line := by
    intro line hline
    have hmem : line ∈ contentLines text := by
      rw [hlines]
      exact .tail _ (List.mem_append_left _ hline)
    exact newline_notMem_of_mem_contentLines hmem
  intro line hline
  obtain ⟨written, hwritten, rfl | rfl⟩ :=
    exists_of_mem_lines_joinLines hbreak hline
  · exact hfront _ hwritten
  · rw [isCloser_withoutReturn]
    exact hfront _ hwritten

theorem front_of_split {parts : Parts} (h : split text = .ok parts) :
    parts.front.isSome = opensFrontMatter text ∧
      ∀ front ∈ parts.front, ∀ line ∈ lines front, isCloser line = false := by
  rcases split_cases text with ⟨hopens, hsplit⟩ | ⟨-, hsplit⟩ | ⟨front, body,
      hfront, hsplit⟩
  · rw [hsplit] at h
    cases h
    simp [hopens]
  · rw [hsplit] at h
    cases h
  · rw [hsplit] at h
    cases h
    simpa [hfront.opens] using hfront.not_isCloser

end Split

/-- Splitting gives back the lines of every layout.  A text is refused exactly
for an opener that nothing closes, and otherwise has a front part exactly where
it has an opener. -/
theorem split_undoes_layout :
    (∀ l : Layout, split l.text =
      .ok ⟨some (joinLines (l.front.map Row.content)),
        joinLines (l.body.map Row.content)⟩) ∧
    ∀ text : List Char,
      (∀ e, split text = .error e ↔ e.code = "P001" ∧
        opensFrontMatter text = true ∧
        ∀ line ∈ (contentLines text).drop 1, isCloser line = false) ∧
      ∀ parts, split text = .ok parts →
        parts.front.isSome = opensFrontMatter text ∧
          ∀ front ∈ parts.front, ∀ line ∈ lines front,
            isCloser line = false := by
  refine ⟨fun l => l.hasFront_text.split, fun text =>
    ⟨fun e => ?_, fun parts => ?_⟩⟩
  · rw [split_eq_error_iff, neverClosed_iff]
  · exact front_of_split

def mixedLayout : Layout where
  marks := 2
  blankRows := [⟨" \t".toList, .returnFeed⟩]
  openerPadding := [' ']
  openerEnd := .feed
  front := [⟨"name: x".toList, .returnFeed⟩, ⟨[], .feed⟩]
  closer := ['.', '.', '.']
  closerPadding := ['\t']
  closerEnd := .returnFeed
  body := [⟨"---".toList, .feed⟩, ⟨"- a".toList, .returnFeed⟩]
  isPadding_blankRows := by decide
  isPadding_opener := by decide
  isContent_front := by decide
  not_isCloser_front := by decide
  closer_eq := .inr rfl
  isPadding_closer := by decide
  isContent_body := by decide

theorem split_undoes_layout_mixedLayout :
    mixedLayout.text =
      "\ufeff\ufeff \t\r\n--- \nname: x\r\n\n...\t\r\n---\n- a\r\n".toList ∧
      split mixedLayout.text =
        .ok ⟨some "name: x\n".toList, "---\n- a".toList⟩ :=
  ⟨by decide, split_undoes_layout.1 mixedLayout⟩

end Workflows.Document
