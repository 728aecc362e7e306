import Mathlib.Algebra.Ring.Parity
import Workflows.Document.Prose
import Workflows.Proofs.Text.Lines

/-!
# Steps around fences

Every fence line turns the scan of steps off or on again, whichever mark it has.
So the lines of a text are scanned part by part, and how a part ends is told by
the parity of its fence lines.  A block between two fences of one mark leaves
the steps around it alone in every text exactly when the fences of the other
mark inside it come in pairs and no step stands between the two of a pair.
-/

namespace Workflows.Document

open Text

/-! ## Scanning part by part -/

def fencedBehind (fenced : Bool) (ls : List (List Char)) : Bool :=
  if Even (ls.countP isFence) then fenced else !fenced

def namesOn (fenced : Bool) (line : List Char) : List (List Char) :=
  if fenced || isFence line then [] else (itemName? line).toList

section Scan

variable {fenced : Bool} {ls before after : List (List Char)}

@[simp] theorem fencedBehind_nil (fenced : Bool) :
    fencedBehind fenced [] = fenced := by
  simp [fencedBehind]

@[simp] theorem fencedBehind_cons (fenced : Bool) (line : List Char)
    (ls : List (List Char)) :
    fencedBehind fenced (line :: ls) =
      fencedBehind (fenced ^^ isFence line) ls := by
  cases hfence : isFence line with
  | false => simp [fencedBehind, hfence]
  | true =>
      by_cases heven : Even (ls.countP isFence) <;>
        simp [fencedBehind, hfence, heven, Nat.even_add_one]

theorem fencedBehind_of_even (h : Even (ls.countP isFence)) :
    fencedBehind fenced ls = fenced :=
  if_pos h

theorem itemNames_cons (fenced : Bool) (line : List Char)
    (ls : List (List Char)) :
    itemNames fenced (line :: ls) =
      namesOn fenced line ++ itemNames (fenced ^^ isFence line) ls := by
  cases hfence : isFence line with
  | true => cases fenced <;> simp [itemNames, namesOn, hfence]
  | false =>
      cases fenced with
      | true => simp [itemNames, namesOn, hfence]
      | false =>
          cases hitem : itemName? line <;>
            simp [itemNames, namesOn, hfence, hitem]

theorem itemNames_append (fenced : Bool) (before after : List (List Char)) :
    itemNames fenced (before ++ after) =
      itemNames fenced before ++
        itemNames (fencedBehind fenced before) after := by
  induction before generalizing fenced with
  | nil => simp [itemNames]
  | cons line before ih => simp [itemNames_cons, ih]

/-- A line outside fences: an even number of them stands before it, and it is
none. -/
inductive IsOutside (ls : List (List Char)) (line : List Char) : Prop
  | intro {before after : List (List Char)}
      (hlines : ls = before ++ line :: after)
      (heven : Even (before.countP isFence)) (hfence : isFence line = false)

theorem IsOutside.mem_itemNames {line name : List Char} (h : IsOutside ls line)
    (hname : itemName? line = some name) : name ∈ itemNames false ls := by
  obtain ⟨rfl, heven, hfence⟩ := h
  simp [itemNames_append, fencedBehind_of_even heven, itemNames_cons, namesOn,
    hfence, hname]

theorem exists_of_mem_itemNames {name : List Char}
    (h : name ∈ itemNames fenced ls) :
    ∃ before line after, ls = before ++ line :: after ∧
      name ∈ namesOn (fencedBehind fenced before) line := by
  induction ls generalizing fenced with
  | nil => cases h
  | cons line ls ih =>
      rw [itemNames_cons, List.mem_append] at h
      rcases h with h | h
      · exact ⟨[], line, ls, rfl, by simpa using h⟩
      · obtain ⟨before, other, after, rfl, hname⟩ := ih h
        exact ⟨line :: before, other, after, rfl, by simpa using hname⟩

theorem mem_itemNames_iff {name : List Char} :
    name ∈ itemNames false ls ↔ ∃ line, IsOutside ls line ∧
    itemName? line = some name := by
  constructor
  · intro h
    obtain ⟨before, line, after, hlines, hname⟩ := exists_of_mem_itemNames h
    cases hfenced : fencedBehind false before <;> cases hfence :
      isFence line <;>
      simp [namesOn, hfenced, hfence] at hname
    have heven : Even (before.countP isFence) := by
      simpa [fencedBehind] using hfenced
    exact ⟨line, ⟨hlines, heven, hfence⟩, hname⟩
  · rintro ⟨line, houtside, hname⟩
    exact houtside.mem_itemNames hname

theorem names_proseSteps (text : List Char) :
    (proseSteps text).map (·.name.toList) = itemNames false (lines text) := by
  apply List.ext_getElem <;> simp [proseSteps, Step.ofName]

theorem proseSteps_eq_iff {text other : List Char} :
    proseSteps text = proseSteps other ↔
      itemNames false (lines text) = itemNames false (lines other) := by
  constructor
  · intro h
    rw [← names_proseSteps, h, names_proseSteps]
  · intro h
    rw [proseSteps, h, proseSteps]

end Scan

/-! ## Marks -/

def startsWith (mark : Char) (line : List Char) : Bool :=
  [mark, mark, mark].isPrefixOf (trimStart line)

theorem isFence_eq (line : List Char) :
    isFence line = (startsWith '\x60' line || startsWith '~' line) := by
  unfold isFence startsWith
  split
  · next h => simp [h]
  · next h => simp [h]
  · next hbackticks htildes =>
      rw [eq_comm, Bool.or_eq_false_iff]
      constructor <;> rw [Bool.eq_false_iff] <;> intro hprefix
      · obtain ⟨rest, hrest⟩ := List.isPrefixOf_iff_prefix.mp hprefix
        exact hbackticks rest hrest.symm
      · obtain ⟨rest, hrest⟩ := List.isPrefixOf_iff_prefix.mp hprefix
        exact htildes rest hrest.symm

theorem startsWith_withoutReturn {mark : Char} (hmark : isBlank mark = false)
    (line : List Char) :
    startsWith mark (withoutReturn line) = startsWith mark line := by
  have hreturn : mark ≠ '\r' := by
    rintro rfl
    cases hmark
  rcases withoutReturn_cases line with hline | hline
  · rw [hline]
  · conv => rhs; rw [hline]
    rw [startsWith, startsWith, trimStart, trimStart, List.dropWhile_append]
    cases (withoutReturn line).dropWhile isBlank with
    | nil => simp [isBlank]
    | cons c rest =>
        rcases rest with _ | ⟨d, _ | ⟨e, rest⟩⟩ <;>
          simp [List.isPrefixOf, hreturn]

theorem isFence_withoutReturn (line : List Char) :
    isFence (withoutReturn line) = isFence line := by
  rw [isFence_eq, isFence_eq, startsWith_withoutReturn (by decide),
    startsWith_withoutReturn (by decide)]

/-! ## Blocks -/

/-- Lines between two fences of one mark. -/
structure FencedBlock where
  mark : Char
  opener : List Char
  inner : List (List Char)
  mark_eq : mark = '\x60' ∨ mark = '~'
  startsWith_opener : startsWith mark opener = true
  not_startsWith_inner : ∀ line ∈ inner, startsWith mark line = false
  newline_notMem_opener : '\n' ∉ opener
  newline_notMem_inner : ∀ line ∈ inner, '\n' ∉ line

namespace FencedBlock

variable (b : FencedBlock)

def closer : List Char := [b.mark, b.mark, b.mark]

def innerText : List Char := b.inner.flatMap (· ++ ['\n'])

def text : List Char :=
  (b.opener :: (b.inner ++ [b.closer])).flatMap (· ++ ['\n'])

/-- The fences inside come in pairs, and no step stands where these let the scan
in. -/
structure IsSealed : Prop where
  even : Even ((lines b.innerText).countP isFence)
  hidden : itemNames true (lines b.innerText) = []

theorem isFence_opener : isFence (withoutReturn b.opener) = true := by
  have hopener := b.startsWith_opener
  rw [isFence_withoutReturn, isFence_eq]
  rcases b.mark_eq with hmark | hmark <;> rw [hmark] at hopener <;>
      simp [hopener]

theorem isFence_closer : isFence b.closer = true := by
  rcases b.mark_eq with hmark | hmark <;> rw [closer, hmark] <;> rfl

theorem lines_innerText : lines b.innerText = b.inner.map withoutReturn := by
  simpa [innerText] using lines_flatMap_append b.newline_notMem_inner []

theorem lines_text_append (rest : List Char) :
    lines (b.text ++ rest) =
      withoutReturn b.opener ::
        (lines b.innerText ++ b.closer :: lines rest) := by
  have hcloser : '\n' ∉ b.closer ∧ withoutReturn b.closer = b.closer := by
    rcases b.mark_eq with hmark | hmark <;> rw [closer, hmark] <;> decide
  have hwritten : ∀ line ∈ b.opener :: (b.inner ++ [b.closer]),
      '\n' ∉ line := by
    simpa using ⟨b.newline_notMem_opener, fun line hline =>
      hline.elim (b.newline_notMem_inner line) fun h => h ▸ hcloser.1⟩
  rw [text, lines_flatMap_append hwritten, lines_innerText]
  simp [hcloser.2]

theorem itemNames_text_append (rest : List Char) :
    itemNames false (lines (b.text ++ rest)) =
      itemNames true (lines b.innerText) ++
        itemNames (!fencedBehind true (lines b.innerText)) (lines rest) := by
  simp [lines_text_append, itemNames_cons, itemNames_append, namesOn,
    b.isFence_opener, b.isFence_closer]

theorem itemNames_around {before : List Char}
    (hends : ∀ c ∈ before.getLast?, c = '\n')
    (heven : Even ((lines before).countP isFence)) (after : List Char) :
    itemNames false (lines (before ++ b.text ++ after)) =
      itemNames false (lines before) ++ (itemNames true (lines b.innerText) ++
        itemNames (!fencedBehind true (lines b.innerText)) (lines after)) := by
  rw [List.append_assoc, lines_append hends, itemNames_append,
    fencedBehind_of_even heven, itemNames_text_append]

end FencedBlock

theorem itemNames_of_not_isFence {ls : List (List Char)}
    (h : ∀ line ∈ ls, isFence line = false) : itemNames true ls = [] := by
  induction ls with
  | nil => rfl
  | cons line ls ih =>
      obtain ⟨hline, hmore⟩ := List.forall_mem_cons.mp h
      simp [itemNames, hline, ih hmore]

theorem FencedBlock.isSealed_of_not_isFence {b : FencedBlock}
    (h : ∀ line ∈ b.inner, isFence line = false) : b.IsSealed := by
  have hlines : ∀ line ∈ lines b.innerText, isFence line = false := by
    rw [b.lines_innerText, List.forall_mem_map]
    intro line hline
    rw [isFence_withoutReturn]
    exact h line hline
  refine ⟨?_, itemNames_of_not_isFence hlines⟩
  have hcount : (lines b.innerText).countP isFence = 0 := by
    rw [List.countP_eq_zero]
    simpa using hlines
  rw [hcount]
  exact Even.zero

def plainBlock (inner : List (List Char))
    (hfence : ∀ line ∈ inner, isFence line = false) (hline : ∀ line ∈ inner,
      '\n' ∉ line) : FencedBlock where
  mark := '\x60'
  opener := ['\x60', '\x60', '\x60']
  inner := inner
  mark_eq := .inl rfl
  startsWith_opener := by decide
  not_startsWith_inner line h := by
    have hmarks := hfence line h
    rw [isFence_eq, Bool.or_eq_false_iff] at hmarks
    exact hmarks.1
  newline_notMem_opener := by decide
  newline_notMem_inner := hline

section Around

variable {b : FencedBlock} {before : List Char}
  (hends : ∀ c ∈ before.getLast?, c = '\n')
  (heven : Even ((lines before).countP isFence))

include hends heven

theorem FencedBlock.IsSealed.proseSteps_eq (h : b.IsSealed)
    (after : List Char) :
    proseSteps (before ++ b.text ++ after) = proseSteps (before ++ after) := by
  rw [proseSteps_eq_iff, b.itemNames_around hends heven,
    h.hidden, fencedBehind_of_even h.even, lines_append hends, itemNames_append,
    fencedBehind_of_even heven]
  rfl

theorem FencedBlock.isSealed_of_proseSteps_eq
    (h : ∀ after, proseSteps (before ++ b.text ++ after) =
      proseSteps (before ++ after)) :
    b.IsSealed := by
  have hrest (after : List Char) :
      itemNames true (lines b.innerText) ++
        itemNames (!fencedBehind true (lines b.innerText)) (lines after) =
          itemNames false (lines after) := by
    have hnames := proseSteps_eq_iff.mp (h after)
    rw [b.itemNames_around hends heven, lines_append hends, itemNames_append,
      fencedBehind_of_even heven] at hnames
    exact List.append_cancel_left hnames
  -- with nothing behind it the block shows what it lets in
  have hhidden : itemNames true (lines b.innerText) = [] := by
    simpa [itemNames] using hrest []
  refine ⟨?_, hhidden⟩
  -- and a step behind it is lost where a fence is left over
  by_contra hodd
  have hstep := hrest ['-', ' ', 'y']
  rw [hhidden, fencedBehind, if_neg hodd] at hstep
  exact absurd hstep (by decide)

/-- A block of fences of one mark is passed over between any two texts exactly
where it is sealed, as it is without fences of the other mark. -/
theorem block_passed_iff (b : FencedBlock) :
    ((∀ after, proseSteps (before ++ b.text ++ after) =
      proseSteps (before ++ after)) ↔
      b.IsSealed) ∧
    ((∀ line ∈ b.inner, isFence line = false) →
      ∀ after, proseSteps (before ++ b.text ++ after) =
        proseSteps (before ++ after)) :=
  ⟨⟨FencedBlock.isSealed_of_proseSteps_eq hends heven,
    fun h => h.proseSteps_eq hends heven⟩,
    fun h => (FencedBlock.isSealed_of_not_isFence h).proseSteps_eq hends heven⟩

end Around

def listBlock : FencedBlock where
  mark := '\x60'
  opener := "  \x60\x60\x60text".toList
  inner := ["- not a step".toList, "1. nor this".toList]
  mark_eq := .inl rfl
  startsWith_opener := by decide
  not_startsWith_inner := by decide
  newline_notMem_opener := by decide
  newline_notMem_inner := by decide

theorem block_passed_iff_listBlock :
    let before := "1. First\n".toList
    (∀ c ∈ before.getLast?, c = '\n') ∧ Even ((lines before).countP isFence) ∧
      listBlock.IsSealed ∧
      ∀ after, proseSteps (before ++ listBlock.text ++ after) =
        proseSteps (before ++ after) := by
  intro before
  have hlast : before.getLast? = some '\n' := by decide
  have hends : ∀ c ∈ before.getLast?, c = '\n' := by simp [hlast]
  have heven : Even ((lines before).countP isFence) := by decide
  have hpassed := block_passed_iff hends heven listBlock
  exact ⟨hends, heven, hpassed.1.mp (hpassed.2 (by decide)),
    hpassed.2 (by decide)⟩

def mixedBlock : FencedBlock where
  mark := '\x60'
  opener := "\x60\x60\x60".toList
  inner := ["~~~".toList, "- x".toList]
  mark_eq := .inl rfl
  startsWith_opener := by decide
  not_startsWith_inner := by decide
  newline_notMem_opener := by decide
  newline_notMem_inner := by decide

/-- The line behind the tildes is scanned and the line behind the block is
not. -/
theorem mixedBlock_not_passed :
    ¬ ∀ (b : FencedBlock) (before after : List Char),
      before.getLast? = some '\n' →
        Even ((lines before).countP isFence) →
        proseSteps (before ++ b.text ++ after) =
          proseSteps (before ++ after) := by
  intro h
  have hsteps := h mixedBlock ['\n'] "- y\n".toList (by decide) (by decide)
  rw [proseSteps_eq_iff] at hsteps
  exact absurd hsteps (by decide)

end Workflows.Document
