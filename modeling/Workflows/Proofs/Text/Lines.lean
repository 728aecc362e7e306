import Mathlib.Algebra.GroupWithZero.Nat
import Mathlib.Data.List.TakeWhile
import Workflows.Text.Line

/-!
# Lines that are read from a text

What stands before a line feed is read as a line, without the carriage return
that may end it.  Trimming makes no difference between the line with that return
and without it.  A text that ends with a line feed is read apart from what
follows it.
-/

namespace Workflows.Text

/-! ## Trimming -/

section Trimming

variable {s blanks : List Char}

theorem trimStart_append_of_blank (h : ∀ c ∈ blanks, isBlank c = true)
    (s : List Char) :
    trimStart (blanks ++ s) = trimStart s :=
  List.dropWhile_append_of_pos h

theorem trimEnd_append_of_blank (h : ∀ c ∈ blanks, isBlank c = true)
    (s : List Char) :
    trimEnd (s ++ blanks) = trimEnd s := by
  rw [trimEnd, List.reverse_append,
    List.dropWhile_append_of_pos (by simpa using h)]
  rfl

theorem trimEnd_eq_self (h : ∀ c ∈ s.getLast?, isBlank c = false) :
    trimEnd s = s := by
  have hdrop : s.reverse.dropWhile isBlank = s.reverse := by
    cases hs : s.reverse with
    | nil => rfl
    | cons c rest =>
        have hlast : c ∈ s.getLast? := by
          rw [List.getLast?_eq_head?_reverse, hs]; rfl
        exact List.dropWhile_cons_of_neg (by simp [h c hlast])
  rw [trimEnd, hdrop, List.reverse_reverse]

theorem trim_append_of_blank (h : ∀ c ∈ blanks, isBlank c = true)
    (s : List Char) :
    trim (s ++ blanks) = trim s := by
  rw [trim, trim, trimStart, trimStart, List.dropWhile_append]
  cases hstart : s.dropWhile isBlank with
  | nil => simp [List.dropWhile_eq_nil_iff.mpr h]
  | cons c rest => exact trimEnd_append_of_blank h (c :: rest)

theorem trim_eq_nil_of_blank (h : ∀ c ∈ s, isBlank c = true) : trim s = [] := by
  have hstart : trimStart s = [] := by
    simpa using trimStart_append_of_blank h []
  rw [trim, hstart, trimEnd_nil]

theorem blank_of_trim_eq_nil (h : trim s = []) : ∀ c ∈ s, isBlank c = true := by
  have hstart : ∀ c ∈ trimStart s, isBlank c = true := by
    simpa [trim, trimEnd, List.dropWhile_eq_nil_iff] using h
  intro c hc
  rw [← List.takeWhile_append_dropWhile (p := isBlank) (l := s),
    List.mem_append] at hc
  rcases hc with hc | hc
  · exact List.mem_takeWhile_imp hc
  · exact hstart c hc

end Trimming

/-! ## The carriage return before a line feed -/

def withoutReturn (line : List Char) : List Char := endedLine line.reverse

section Return

variable {line : List Char}

@[simp] theorem withoutReturn_concat (line : List Char) :
    withoutReturn (line ++ ['\r']) = line := by
  simp [withoutReturn, endedLine]

theorem withoutReturn_eq_self (h : line.getLast? ≠ some '\r') :
    withoutReturn line = line := by
  rw [List.getLast?_eq_head?_reverse] at h
  unfold withoutReturn endedLine
  split
  · next rest hreverse => simp [hreverse] at h
  · simp

theorem withoutReturn_cases (line : List Char) :
    withoutReturn line = line ∨ line = withoutReturn line ++ ['\r'] := by
  by_cases h : line.getLast? = some '\r'
  · obtain ⟨init, rfl⟩ := List.getLast?_eq_some_iff.mp h
    right
    simp
  · exact .inl (withoutReturn_eq_self h)

theorem trimEnd_withoutReturn (line : List Char) :
    trimEnd (withoutReturn line) = trimEnd line := by
  rcases withoutReturn_cases line with h | h
  · rw [h]
  · conv => rhs; rw [h]
    exact (trimEnd_append_of_blank (by simp; decide) _).symm

theorem trim_withoutReturn (line : List Char) :
    trim (withoutReturn line) = trim line := by
  rcases withoutReturn_cases line with h | h
  · rw [h]
  · conv => rhs; rw [h]
    exact (trim_append_of_blank (by simp; decide) _).symm

theorem mem_of_mem_withoutReturn {c : Char} (h : c ∈ withoutReturn line) :
    c ∈ line := by
  rcases withoutReturn_cases line with hline | hline
  · rwa [hline] at h
  · rw [hline]
    simp [h]

end Return

/-! ## Reading lines -/

section Reading

variable {line reversed text : List Char}

theorem linesFrom_append (hline : '\n' ∉ line) (rest : List Char) :
    linesFrom reversed (line ++ rest) =
      linesFrom (line.reverse ++ reversed) rest := by
  induction line generalizing reversed with
  | nil => rfl
  | cons c line ih =>
      obtain ⟨hc, hline⟩ : '\n' ≠ c ∧ '\n' ∉ line := by simpa using hline
      rw [List.cons_append, linesFrom, if_neg hc.symm, ih hline]
      simp

theorem lines_line (hline : '\n' ∉ line) (rest : List Char) :
    lines (line ++ '\n' :: rest) = withoutReturn line :: lines rest := by
  rw [lines, linesFrom_append hline, linesFrom_newline, List.append_nil]
  rfl

theorem lines_flatMap_append {ls : List (List Char)}
    (hls : ∀ line ∈ ls, '\n' ∉ line) (rest : List Char) :
    lines (ls.flatMap (· ++ ['\n']) ++ rest) =
      ls.map withoutReturn ++ lines rest := by
  induction ls with
  | nil => rfl
  | cons line ls ih =>
      obtain ⟨hline, hmore⟩ := List.forall_mem_cons.mp hls
      simp [lines_line hline, ih hmore]

theorem linesFrom_append_newline_cons (reversed text rest : List Char) :
    linesFrom reversed (text ++ '\n' :: rest) =
      linesFrom reversed (text ++ ['\n']) ++ lines rest := by
  induction text generalizing reversed with
  | nil => simp [linesFrom_newline, linesFrom, lines]
  | cons c text ih =>
      by_cases hc : c = '\n'
      · simp [hc, linesFrom_newline, ih]
      · simp [linesFrom, hc, ih]

theorem length_linesFrom_concat (reversed text : List Char) :
    (linesFrom reversed (text ++ ['\n'])).length = text.count '\n' + 1 := by
  induction text generalizing reversed with
  | nil => simp [linesFrom_newline, linesFrom]
  | cons c text ih =>
      by_cases hc : c = '\n'
      · simp [hc, linesFrom_newline, ih]
      · simp [linesFrom, hc, ih]

theorem length_lines_flatMap (ls : List (List Char)) :
    (lines (ls.flatMap (· ++ ['\n']))).length = ls.length +
      (ls.map (List.count '\n')).sum := by
  induction ls with
  | nil => rfl
  | cons line ls ih =>
      have hline := length_linesFrom_concat [] line
      rw [List.flatMap_cons, List.append_assoc, List.singleton_append, lines,
        linesFrom_append_newline_cons, List.length_append, hline, ih,
        List.map_cons, List.sum_cons, List.length_cons]
      omega

theorem lines_append {before : List Char}
    (hends : ∀ c ∈ before.getLast?, c = '\n') (rest : List Char) :
    lines (before ++ rest) = lines before ++ lines rest := by
  cases hlast : before.getLast? with
  | none =>
      obtain rfl : before = [] := List.getLast?_eq_none_iff.mp hlast
      rfl
  | some c =>
      obtain rfl : c = '\n' := hends c (by simp [hlast])
      obtain ⟨init, rfl⟩ := List.getLast?_eq_some_iff.mp hlast
      have happend : init ++ ['\n'] ++ rest = init ++ '\n' :: rest := by simp
      rw [happend]
      exact linesFrom_append_newline_cons [] init rest

theorem newline_notMem_of_mem_linesFrom (hreversed : '\n' ∉ reversed) :
    ∀ line ∈ linesFrom reversed text, '\n' ∉ line := by
  induction text generalizing reversed with
  | nil =>
      intro line hline
      cases reversed <;> simp_all [linesFrom]
  | cons c text ih =>
      by_cases hc : c = '\n'
      · rw [hc, linesFrom_newline, List.forall_mem_cons]
        refine ⟨fun hmem => ?_, ih (by simp)⟩
        have hreverse : '\n' ∈ withoutReturn reversed.reverse := by
          rwa [withoutReturn, List.reverse_reverse]
        exact hreversed (by simpa using mem_of_mem_withoutReturn hreverse)
      · rw [linesFrom, if_neg hc]
        exact ih (by simp [Ne.symm hc, hreversed])

theorem exists_of_mem_lines_joinLines {ls : List (List Char)}
    (hls : ∀ line ∈ ls, '\n' ∉ line) (hline : line ∈ lines (joinLines ls)) :
    ∃ written ∈ ls, line = written ∨ line = withoutReturn written := by
  induction ls with
  | nil => simp [joinLines] at hline
  | cons first ls ih =>
      obtain ⟨hfirst, hmore⟩ := List.forall_mem_cons.mp hls
      cases ls with
      | nil =>
          have hjoined : joinLines [first] = first ++ [] := by simp [joinLines]
          rw [hjoined, lines, linesFrom_append hfirst] at hline
          cases first <;> simp_all [linesFrom]
      | cons next ls =>
          rw [joinLines_cons (List.cons_ne_nil next ls),
            lines_line hfirst] at hline
          rcases List.mem_cons.mp hline with rfl | hline
          · exact ⟨first, List.mem_cons_self, .inr rfl⟩
          · obtain ⟨written, hwritten, hcases⟩ := ih hmore hline
            exact ⟨written, .tail _ hwritten, hcases⟩

end Reading

end Workflows.Text
