import Workflows.Proofs.Document.FrontMatter
import Workflows.Proofs.Document.Items

/-!
# Headings that name a workflow

Where the fields of a document give no name, it has the text of the first
heading in the prose.  The search for it goes through all lines, those between
two fences too.  So a block in front of a prose leaves the name of every prose
alone exactly where none of its inner lines looks like a heading, and else the
first of these that does is the name.
-/

namespace Workflows

namespace Text

section Trimming

variable {s : List Char} {c : Char} (hc : isBlank c = false)

include hc

theorem mem_trimStart (h : c ∈ s) : c ∈ trimStart s := by
  rw [← List.takeWhile_append_dropWhile (p := isBlank) (l := s),
    List.mem_append] at h
  rcases h with h | h
  · have hblank := List.mem_takeWhile_imp h
    simp [hc] at hblank
  · exact h

theorem mem_trimEnd (h : c ∈ s) : c ∈ trimEnd s := by
  apply List.mem_reverse.mpr
  apply mem_trimStart hc
  simpa using h

end Trimming

end Text

namespace Document

open Text

/-! ## Headings -/

/-- A number sign and a space at the start of a line, blanks aside. -/
def IsHeading (line : List Char) : Prop := ['#', ' '] <+: trim line

def title? (line : List Char) : Option (List Char) :=
  match trim line with
  | '#' :: ' ' :: rest => some (trim rest)
  | _ => none

section Titles

variable {line title : List Char}

theorem title?_eq_some_iff :
    title? line = some title ↔ ∃ rest, trim line = '#' :: ' ' :: rest ∧
    trim rest = title := by
  unfold title?
  split
  · next rest heq => simp [heq]
  · next hother =>
      simp only [reduceCtorEq, false_iff, not_exists, not_and]
      intro rest heq
      exact absurd heq (hother rest)

theorem title?_eq_none_iff : title? line = none ↔ ¬ IsHeading line := by
  rw [Option.eq_none_iff_forall_ne_some]
  simp only [ne_eq, title?_eq_some_iff, IsHeading, not_exists, not_and]
  constructor
  · rintro h ⟨rest, hrest⟩
    exact h _ rest hrest.symm rfl
  · rintro h title rest hrest -
    exact h ⟨rest, hrest.symm⟩

theorem ne_nil_of_title? (h : title? line = some title) : title ≠ [] := by
  obtain ⟨rest, hline, rfl⟩ := title?_eq_some_iff.mp h
  have hlast := last_trimEnd (trimStart line)
  rw [← trim, hline] at hlast
  intro hblank
  have hrest := blank_of_trim_eq_nil hblank
  cases hend : rest.getLast? with
  | none =>
      obtain rfl : rest = [] := List.getLast?_eq_none_iff.mp hend
      exact absurd (hlast ' ' rfl) (by decide)
  | some c =>
      have hc := hlast c (by simp [List.getLast?_cons, hend])
      simp [hrest c (List.mem_of_getLast? hend)] at hc

theorem title?_withoutReturn (line : List Char) :
    title? (withoutReturn line) = title? line := by
  rw [title?, trim_withoutReturn, title?]

theorem heading?_eq_findSome? (text : List Char) :
    heading? text = (lines text).findSome? title? := by
  unfold heading?
  dsimp only
  split
  · next h =>
      obtain ⟨line, -, hline⟩ := List.exists_of_findSome?_eq_some h
      exact absurd rfl (ne_nil_of_title? hline)
  · rfl

end Titles

theorem name_readMarkdown {prose : List Char}
    (h : opensFrontMatter prose = false) :
    (readMarkdown prose).map Workflow.name =
      .ok ((((lines prose).findSome? title?).map String.ofList).getD
        untitled) := by
  rw [readMarkdown, split_of_not_opens h, ← heading?_eq_findSome?]
  rfl

/-! ## Behind a block -/

theorem exists_trim_of_startsWith {mark : Char} {line : List Char}
    (hmark : isBlank mark = false) (h : startsWith mark line = true) :
    ∃ rest, trim line = mark :: rest := by
  obtain ⟨rest, hrest⟩ := List.isPrefixOf_iff_prefix.mp h
  refine ⟨trimEnd (mark :: mark :: rest), ?_⟩
  rw [trim, ← hrest]
  exact trimEnd_cons hmark _

namespace FencedBlock

variable (b : FencedBlock)

theorem isBlank_mark : isBlank b.mark = false := by
  rcases b.mark_eq with h | h <;> rw [h] <;> decide

theorem exists_trim_opener : ∃ rest, trim b.opener = b.mark :: rest :=
  exists_trim_of_startsWith b.isBlank_mark b.startsWith_opener

theorem title?_opener : title? (withoutReturn b.opener) = none := by
  obtain ⟨rest, hrest⟩ := b.exists_trim_opener
  rw [title?_withoutReturn, title?_eq_none_iff, IsHeading, hrest]
  rcases b.mark_eq with h | h <;> simp [h]

theorem title?_closer : title? b.closer = none := by
  rcases b.mark_eq with h | h <;> rw [closer, h] <;> rfl

theorem findSome?_title?_append (rest : List Char) :
    (lines (b.text ++ rest)).findSome? title? =
      (b.inner.findSome? title?).or ((lines rest).findSome? title?) := by
  have hinner : title? ∘ withoutReturn = title? := funext title?_withoutReturn
  simp [lines_text_append, lines_innerText, b.title?_opener, b.title?_closer,
    List.findSome?_map, hinner]

theorem isByteOrderMark_head :
    ∀ c ∈ b.opener.head?, isByteOrderMark c = false := by
  intro c hc
  obtain ⟨more, hopener⟩ := List.head?_eq_some_iff.mp hc
  obtain ⟨rest, hrest⟩ := b.exists_trim_opener
  by_contra hmark
  obtain rfl : c = '\ufeff' := by simpa [isByteOrderMark] using hmark
  -- the byte order mark is no blank, so it would be the mark of the fence
  rw [hopener, trim, trimStart_eq_self (by decide),
    trimEnd_cons (by decide)] at hrest
  have hmark := (List.cons.inj hrest).1
  rcases b.mark_eq with h | h <;> rw [h] at hmark <;>
      exact absurd hmark (by decide)

theorem contentLines_text_append (rest : List Char) :
    ∃ more, contentLines (b.text ++ rest) = withoutReturn b.opener :: more := by
  obtain ⟨after, hafter⟩ := b.exists_trim_opener
  have hwritten : (trim (withoutReturn b.opener)).isEmpty = false := by
    rw [trim_withoutReturn, hafter]
    rfl
  have hstart : (b.text ++ rest).dropWhile isByteOrderMark =
      b.text ++ rest := by
    cases hopener : b.opener with
    | nil => simp [hopener, trim] at hafter
    | cons c more =>
        have hc : isByteOrderMark c = false :=
          b.isByteOrderMark_head c (by simp [hopener])
        simp [text, hopener, hc]
  refine ⟨lines b.innerText ++ b.closer :: lines rest, ?_⟩
  rw [contentLines, hstart, lines_text_append,
    List.dropWhile_cons_of_neg (by simp [hwritten])]

theorem not_opens_text_append (rest : List Char) :
    opensFrontMatter (b.text ++ rest) = false := by
  obtain ⟨more, hmore⟩ := b.contentLines_text_append rest
  have hmark : b.mark ∈ trimEnd b.opener := by
    apply mem_trimEnd b.isBlank_mark
    apply (List.dropWhile_sublist isBlank).subset
    exact (List.isPrefixOf_iff_prefix.mp b.startsWith_opener).subset
      List.mem_cons_self
  rw [opensFrontMatter, hmore, List.head?_cons, Option.any_some,
    isOpener, trimEnd_withoutReturn]
  by_contra hopener
  have hhyphens : trimEnd b.opener = ['-', '-', '-'] := by simpa using hopener
  rcases b.mark_eq with h | h <;> simp [hhyphens, h] at hmark

theorem name_text_append {prose : List Char}
    (h : opensFrontMatter prose = false) :
    ∃ name, (readMarkdown prose).map Workflow.name = .ok name ∧
      (readMarkdown (b.text ++ prose)).map Workflow.name =
        .ok (((b.inner.findSome? title?).map String.ofList).getD name) := by
  refine ⟨_, name_readMarkdown h, ?_⟩
  rw [name_readMarkdown (b.not_opens_text_append prose),
    findSome?_title?_append]
  cases b.inner.findSome? title? <;> rfl

theorem findSome?_title?_of_names
    (h : ∀ prose, opensFrontMatter prose = false →
      (readMarkdown (b.text ++ prose)).map Workflow.name =
        (readMarkdown prose).map Workflow.name) :
    b.inner.findSome? title? = none := by
  cases hfound : b.inner.findSome? title? with
  | none => rfl
  | some title =>
      -- the title would be the name of a prose without a heading and of one
      -- with another
      have hname (prose : List Char) (hprose : opensFrontMatter prose = false) :
          (readMarkdown prose).map Workflow.name =
            .ok (String.ofList title) := by
        obtain ⟨name, -, hblock⟩ := b.name_text_append hprose
        rw [← h prose hprose, hblock, hfound]
        rfl
      have huntitled := (name_readMarkdown rfl).symm.trans (hname [] rfl)
      have hother :=
        (name_readMarkdown rfl).symm.trans (hname ['#', ' ', 'x'] rfl)
      exact absurd (huntitled.trans hother.symm) (by decide)

end FencedBlock

/-- A block leaves the name of every prose behind it alone exactly where none of
its inner lines looks like a heading.  In front of any prose the first line that
does gives the name. -/
theorem block_names_iff (b : FencedBlock) :
    ((∀ prose, opensFrontMatter prose = false →
        (readMarkdown (b.text ++ prose)).map Workflow.name =
          (readMarkdown prose).map Workflow.name) ↔
      ∀ line ∈ b.inner, ¬ IsHeading line) ∧
    ∀ prose, opensFrontMatter prose = false →
    opensFrontMatter (b.text ++ prose) = false ∧
      ∃ name, (readMarkdown prose).map Workflow.name = .ok name ∧
        (readMarkdown (b.text ++ prose)).map Workflow.name =
          .ok (((b.inner.findSome? title?).map String.ofList).getD name) := by
  refine ⟨⟨fun h => ?_, fun h prose hprose => ?_⟩, fun prose hprose =>
    ⟨b.not_opens_text_append prose, b.name_text_append hprose⟩⟩
  · have hnone := List.findSome?_eq_none_iff.mp (b.findSome?_title?_of_names h)
    exact fun line hline => title?_eq_none_iff.mp (hnone line hline)
  · have hnone : b.inner.findSome? title? = none :=
      List.findSome?_eq_none_iff.mpr fun line hline =>
        title?_eq_none_iff.mpr (h line hline)
    obtain ⟨name, hname, hblock⟩ := b.name_text_append hprose
    rw [hblock, hname, hnone]
    rfl

theorem block_names_iff_listBlock :
    (∀ line ∈ listBlock.inner, ¬ IsHeading line) ∧
      ∀ prose, opensFrontMatter prose = false →
        (readMarkdown (listBlock.text ++ prose)).map Workflow.name =
          (readMarkdown prose).map Workflow.name := by
  have hnone : ∀ line ∈ listBlock.inner, title? line = none := by decide
  have hplain : ∀ line ∈ listBlock.inner, ¬ IsHeading line :=
    fun line hline => title?_eq_none_iff.mp (hnone line hline)
  exact ⟨hplain, (block_names_iff listBlock).1.mpr hplain⟩

/-- A comment in a script is taken for the heading of the document. -/
theorem named_after_comment :
    ¬ ∀ (inner : List (List Char)) (hfence : ∀ line ∈ inner,
      isFence line = false)
      (hline : ∀ line ∈ inner, '\n' ∉ line) (prose : List Char),
      opensFrontMatter ((plainBlock inner hfence hline).text ++ prose) = false →
      opensFrontMatter prose = false →
      (readMarkdown ((plainBlock inner hfence hline).text ++ prose)).map
        Workflow.name = (readMarkdown prose).map Workflow.name := by
  intro h
  let prose := "# Release\n\n- ship\n".toList
  let script :=
    plainBlock ["# install deps".toList, "npm ci".toList]
      (by decide) (by decide)
  have hprose : opensFrontMatter prose = false := by decide
  have hblock : opensFrontMatter (script.text ++ prose) = false :=
    script.not_opens_text_append prose
  have hname := h _ _ _ prose hblock hprose
  rw [name_readMarkdown hblock, name_readMarkdown hprose] at hname
  exact absurd hname (by decide)

end Document

end Workflows
