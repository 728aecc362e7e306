import Mathlib.Data.List.Forall2
import Workflows.Proofs.Document.CheckedTasks
import Workflows.Proofs.Document.Patterns
import Workflows.Proofs.Document.StepIds

/-!
# The lines that are steps

A line outside fences is a step exactly where it is a number or a bullet behind
blanks, a blank and something more, and no task that is done.  The steps of a
text come in the order of these lines, and each is named by the text behind its
marker, an open box included in the marker of a bullet, wherever that text has
something to read.
-/

namespace Workflows.Document

open Text

/-! ## The grammar of a line -/

inductive IsLead : List Char → Prop
  | number {digits : List Char} {stop : Char} (hne : digits ≠ [])
      (hdigits : ∀ d ∈ digits, isDecimalDigit d = true)
      (hstop : stop = '.' ∨ stop = ')') :
      IsLead (digits ++ [stop])
  | bullet {c : Char} (hbullet : isBullet c = true) : IsLead [c]

/-- A lead behind blanks, a blank and at least one more character. -/
inductive IsListed : List Char → Prop
  | intro {indent lead rest : List Char} {gap : Char} (hindent : ∀ d ∈ indent,
      isBlank d = true)
      (hlead : IsLead lead) (hgap : isBlank gap = true) (hrest : rest ≠ []) :
      IsListed (indent ++ (lead ++ gap :: rest))

/-- A bullet behind blanks, and behind it a box with a cross between blanks. -/
def IsDone (line : List Char) : Prop :=
  ∃ t : CheckedTask, t.rest ≠ [] ∧ t.line = line

inductive IsBoxed (text : List Char) : List Char → Prop
  | intro {gap : List Char} (hne : gap ≠ []) (hgap : ∀ d ∈ gap,
      isBlank d = true)
      (hblank : ∃ d ∈ text.head?, isBlank d = true) :
      IsBoxed text (gap ++ '[' :: ' ' :: ']' :: text)

/-- The text that stands behind the marker of a line. -/
inductive IsText (text : List Char) : List Char → Prop
  | number {indent digits : List Char} {stop : Char} (hindent : ∀ d ∈ indent,
      isBlank d = true)
      (hne : digits ≠ []) (hdigits : ∀ d ∈ digits, isDecimalDigit d = true)
      (hstop : stop = '.' ∨ stop = ')') :
      IsText text (indent ++ (digits ++ stop :: text))
  | bullet {indent : List Char} {c : Char} (hindent : ∀ d ∈ indent,
      isBlank d = true)
      (hbullet : isBullet c = true) (hopen : ∀ inner, ¬ IsBoxed inner text) :
      IsText text (indent ++ c :: text)
  | box {indent rest : List Char} {c : Char} (hindent : ∀ d ∈ indent,
      isBlank d = true)
      (hbullet : isBullet c = true) (hboxed : IsBoxed text rest) :
      IsText text (indent ++ c :: rest)

/-! ## Text behind a marker -/

section ItemText

variable {s name : List Char}

theorem exists_split_of_written (h : ∃ c ∈ s, isBlank c = false) :
    ∃ gap d rest, (∀ c ∈ gap, isBlank c = true) ∧ isBlank d = false ∧
    s = gap ++ d :: rest := by
  have hs := takeWhile_append_trimStart s
  have hhead := List.head?_dropWhile_not isBlank s
  cases hstart : trimStart s with
  | nil =>
      obtain ⟨c, hc, hblank⟩ := h
      have hall := List.dropWhile_eq_nil_iff.mp hstart c hc
      simp [hblank] at hall
  | cons d rest =>
      rw [trimStart] at hstart
      rw [hstart] at hhead
      refine ⟨s.takeWhile isBlank, d, rest, blank_of_mem_takeWhile s,
        by simpa using hhead, ?_⟩
      rw [← hstart]
      exact hs.symm

theorem exists_of_itemText? (h : itemText? s = some name) :
    ∃ gap rest, isBlank gap = true ∧ rest ≠ [] ∧ s = gap :: rest := by
  cases s with
  | nil => simp [itemText?] at h
  | cons gap rest =>
      refine ⟨gap, rest, ?_, ?_, rfl⟩
      · by_contra hgap
        simp [itemText?, hgap] at h
      · rintro rfl
        by_cases hgap : isBlank gap = true <;> simp [itemText?, hgap] at h

theorem itemText?_of_written (hhead : ∃ c ∈ s.head?, isBlank c = true)
    (hwritten : ∃ c ∈ s, isBlank c = false) : itemText? s = some (trim s) := by
  obtain ⟨gap, d, rest, hgap, hd, rfl⟩ := exists_split_of_written hwritten
  have hne : gap ≠ [] := by
    rintro rfl
    simp [hd] at hhead
  rw [itemText?_append hne hgap hd, trim, trimStart_indented hgap hd]

theorem exists_itemText? {gap : Char} {rest : List Char}
    (hgap : isBlank gap = true) (hrest : rest ≠ []) :
    ∃ name, itemText? (gap :: rest) = some name := by
  by_cases hwritten : ∃ c ∈ gap :: rest, isBlank c = false
  · exact ⟨_, itemText?_of_written (by simpa using hgap) hwritten⟩
  · have hblank : ∀ c ∈ gap :: rest, isBlank c = true := by simpa using hwritten
    have htwo : 2 ≤ (gap :: rest).length :=
      Nat.succ_le_succ (List.length_pos_iff.mpr hrest)
    obtain ⟨c, -, hname⟩ := IsGap.itemText?_eq ⟨hblank, htwo⟩
    exact ⟨[c], hname⟩

end ItemText

/-! ## Lines by the grammar -/

section Lines

variable {line text name : List Char}

theorem isDone_iff : IsDone line ↔ isChecked line = true := by
  constructor
  · rintro ⟨t, hrest, rfl⟩
    exact t.isChecked_line hrest
  · intro h
    have hcross {cross c : Char} {rest : List Char} (hbox : cross = 'x' ∨
        cross = 'X')
        (hafter : afterBulletBlanks? line =
          some ('[' :: cross :: ']' :: c :: rest))
        (hblank : isBlank c = true) : IsDone line := by
      obtain ⟨indent, bullet, gap, hindent, hbullet, hne, hgap, rfl⟩ :=
        exists_of_afterBulletBlanks? hafter
      exact ⟨⟨indent, bullet, gap, cross, c :: rest, hindent, hbullet, hne,
        hgap, hbox, by simpa using hblank⟩, List.cons_ne_nil c rest, rfl⟩
    unfold isChecked at h
    split at h
    · next hafter => exact hcross (.inl rfl) hafter h
    · next hafter => exact hcross (.inr rfl) hafter h
    · cases h

theorem IsListed.of_itemName? (h : itemName? line = some name) :
    IsListed line := by
  obtain ⟨rest, ⟨hindent, hmarker⟩, htext⟩ := exists_of_itemName? h
  obtain ⟨gap, more, hgap, hmore, rfl⟩ := exists_of_itemText? htext
  cases hmarker with
  | number hne hdigits hstop =>
      exact .intro hindent (.number hne hdigits hstop) hgap hmore
  | bullet hbullet => exact .intro hindent (.bullet hbullet) hgap hmore
  | @box c blanks hbullet hne hblanks =>
      -- the box is part of what a bullet alone would be followed by
      obtain ⟨d, blanks, rfl⟩ := List.exists_cons_of_ne_nil hne
      have hrest : blanks ++ '[' :: ' ' :: ']' :: gap :: more ≠ [] := by simp
      simpa using IsListed.intro hindent (.bullet hbullet)
        (hblanks d List.mem_cons_self) hrest

theorem IsListed.exists_itemName? (h : IsListed line) (hdone : ¬ IsDone line) :
    ∃ name, itemName? line = some name := by
  obtain @⟨indent, lead, rest, gap, hindent, hlead, hgap, hrest⟩ := h
  obtain ⟨name, hname⟩ := exists_itemText? hgap hrest
  cases hlead with
  | number hne hdigits hstop =>
      have hitem := (itemName?_number hindent hne hdigits hstop (gap :: rest)).1
      exact ⟨name, by simpa [hname] using hitem⟩
  | @bullet c hbullet =>
      have hopen : isChecked (indent ++ c :: gap :: rest) = false := by
        simpa [isDone_iff] using hdone
      have hnumber := numbered?_of_isBullet hindent hbullet (gap :: rest)
      have hafter := afterBullet?_indented hindent hbullet (gap :: rest)
      cases hbox : unchecked? (indent ++ c :: gap :: rest) <;>
        simp [itemName?, bullet?, hopen, hnumber, hafter, hbox, hname]

theorem exists_itemName?_iff :
    (∃ name, itemName? line = some name) ↔ IsListed line ∧ ¬ IsDone line := by
  constructor
  · rintro ⟨name, hname⟩
    refine ⟨.of_itemName? hname, fun hdone => ?_⟩
    simp [itemName?, isDone_iff.mp hdone] at hname
  · rintro ⟨hlisted, hdone⟩
    exact hlisted.exists_itemName? hdone

/-! The name of a line. -/

theorem IsListed.exists_text (h : IsListed line) :
    ∃ text, IsText text line := by
  obtain @⟨indent, lead, rest, gap, hindent, hlead, -, -⟩ := h
  cases hlead with
  | number hne hdigits hstop =>
      exact ⟨gap :: rest,
        by simpa using IsText.number hindent hne hdigits hstop⟩
  | bullet hbullet =>
      by_cases hboxed : ∃ inner, IsBoxed inner (gap :: rest)
      · obtain ⟨inner, hinner⟩ := hboxed
        exact ⟨inner, .box hindent hbullet hinner⟩
      · exact ⟨gap :: rest, .bullet hindent hbullet fun inner hinner =>
          hboxed ⟨inner, hinner⟩⟩

theorem unchecked?_eq_none {indent : List Char} {c : Char}
    (hindent : ∀ d ∈ indent, isBlank d = true) (hbullet : isBullet c = true)
    (hopen : ∀ inner, ¬ IsBoxed inner text) :
    unchecked? (indent ++ c :: text) = none := by
  rw [Option.eq_none_iff_forall_ne_some]
  intro name hname
  unfold unchecked? at hname
  split at hname
  · next rest hrest =>
      obtain ⟨gap, hne, hgap, hafter⟩ := exists_gap_of_afterBulletBlanks? hrest
      rw [afterBullet?_indented hindent hbullet] at hafter
      obtain rfl := Option.some.inj hafter
      obtain ⟨blank, more, hblank, -, rfl⟩ := exists_of_itemText? hname
      exact hopen _ (.intro hne hgap (by simpa using hblank))
  · cases hname

theorem unchecked?_of_isBoxed {indent rest : List Char} {c : Char}
    (hindent : ∀ d ∈ indent, isBlank d = true) (hbullet : isBullet c = true)
    (hboxed : IsBoxed text rest) :
    unchecked? (indent ++ c :: rest) = itemText? text := by
  obtain ⟨hne, hgap, -⟩ := hboxed
  rw [unchecked?, afterBulletBlanks?_indented hindent hbullet hne hgap,
    trimStart_eq_self (by decide)]
  rfl

theorem IsText.name_eq_trim (h : IsText text line)
    (hname : itemName? line = some name) (hwritten : ∃ c ∈ text,
      isBlank c = false) : name = trim text := by
  have hread : itemName? line = itemText? text → name = trim text := by
    intro hline
    rw [hname] at hline
    obtain ⟨gap, rest, hgap, -, rfl⟩ := exists_of_itemText? hline.symm
    rw [itemText?_of_written (by simpa using hgap) hwritten] at hline
    exact Option.some.inj hline
  have hchecked : isChecked line = false := by
    by_contra hchecked
    simp [itemName?, hchecked] at hname
  cases h with
  | number hindent hne hdigits hstop =>
      exact hread (itemName?_number hindent hne hdigits hstop text).1
  | bullet hindent hbullet hopen =>
      apply hread
      simp [itemName?, bullet?, hchecked, numbered?_of_isBullet hindent hbullet,
        afterBullet?_indented hindent hbullet,
        unchecked?_eq_none hindent hbullet hopen]
  | box hindent hbullet hboxed =>
      have hbox := unchecked?_of_isBoxed hindent hbullet hboxed
      obtain ⟨-, -, hblank⟩ := hboxed
      rw [itemText?_of_written hblank hwritten] at hbox
      have hnumber := numbered?_of_isBullet hindent hbullet
      simpa [itemName?, hchecked, hnumber, hbox, eq_comm] using hname

end Lines

/-! ## The lines of a text -/

/-- The line at a position, outside fences: an even number of them stands before
it, and it is none. -/
structure OutsideAt (ls : List (List Char)) (position : Nat)
    (line : List Char) : Prop where
  getElem?_eq : ls[position]? = some line
  even : Even ((ls.take position).countP isFence)
  isFence_eq : isFence line = false

def itemPlaces (fenced : Bool) : List (List Char) → List Nat
  | [] => []
  | line :: ls =>
      (namesOn fenced line).map (fun _ => 0) ++
        (itemPlaces (fenced ^^ isFence line) ls).map (· + 1)

section Places

variable {ls : List (List Char)}

theorem namesOn_cases (fenced : Bool) (line : List Char) :
    namesOn fenced line = [] ∨ ∃ name, namesOn fenced line = [name] := by
  unfold namesOn
  cases itemName? line <;> split <;> simp

theorem itemName?_of_mem_namesOn {fenced : Bool} {line name : List Char}
    (h : name ∈ namesOn fenced line) : itemName? line = some name := by
  unfold namesOn at h
  split at h
  · cases h
  · simpa using h

theorem pairwise_itemPlaces (fenced : Bool) (ls : List (List Char)) :
    (itemPlaces fenced ls).Pairwise (· < ·) := by
  induction ls generalizing fenced with
  | nil => exact .nil
  | cons line ls ih =>
      have hlater :
          ((itemPlaces (fenced ^^ isFence line) ls).map (· + 1)).Pairwise
            (· < ·) :=
        List.Pairwise.map _ (fun _ _ h => Nat.succ_lt_succ h) (ih _)
      rcases namesOn_cases fenced line with h | ⟨name, h⟩
      · simpa [itemPlaces, h] using hlater
      · simpa [itemPlaces, h] using hlater

theorem mem_itemPlaces_iff {fenced : Bool} {position : Nat} :
    position ∈ itemPlaces fenced ls ↔ ∃ line, ls[position]? = some line ∧
      namesOn (fencedBehind fenced (ls.take position)) line ≠ [] := by
  induction ls generalizing fenced position with
  | nil => simp [itemPlaces]
  | cons line ls ih =>
      cases position with
      | zero => simp [itemPlaces, List.eq_nil_iff_forall_not_mem]
      | succ position => simp [itemPlaces, ih]

theorem forall₂_itemPlaces (fenced : Bool) (ls : List (List Char)) :
    List.Forall₂ (fun position name => ∃ line ∈ ls[position]?,
      itemName? line = some name)
      (itemPlaces fenced ls) (itemNames fenced ls) := by
  induction ls generalizing fenced with
  | nil => exact .nil
  | cons line ls ih =>
      rw [itemPlaces, itemNames_cons]
      apply List.rel_append
      · rw [List.forall₂_map_left_iff, List.forall₂_same]
        intro name hname
        exact ⟨line, rfl, itemName?_of_mem_namesOn hname⟩
      · rw [List.forall₂_map_left_iff]
        simpa using ih _

theorem namesOn_ne_nil_iff {fenced : Bool} {line : List Char} :
    namesOn fenced line ≠ [] ↔
      fenced = false ∧ isFence line = false ∧
      IsListed line ∧ ¬ IsDone line := by
  rw [← exists_itemName?_iff]
  cases fenced <;> cases hfence : isFence line <;> cases hitem :
    itemName? line <;>
    simp [namesOn, hfence, hitem]

theorem mem_itemPlaces_iff_outsideAt {position : Nat} :
    position ∈ itemPlaces false ls ↔
      ∃ line, OutsideAt ls position line ∧ IsListed line ∧ ¬ IsDone line := by
  have heven : fencedBehind false (ls.take position) = false ↔
      Even ((ls.take position).countP isFence) := by
    simp [fencedBehind]
  simp only [mem_itemPlaces_iff, namesOn_ne_nil_iff, heven]
  constructor
  · rintro ⟨line, hline, hbefore, hfence, hitem⟩
    exact ⟨line, ⟨hline, hbefore, hfence⟩, hitem⟩
  · rintro ⟨line, ⟨hline, hbefore, hfence⟩, hitem⟩
    exact ⟨line, hline, hbefore, hfence, hitem⟩

end Places

/-- The name is the text of the line, where that has something to read. -/
structure IsNameOf (line name : List Char) : Prop where
  exists_text : ∃ text, IsText text line
  eq_trim : ∀ text, IsText text line → (∃ c ∈ text, isBlank c = false) →
    name = trim text

theorem isNameOf_of_itemName? {line name : List Char}
    (h : itemName? line = some name) :
    IsNameOf line name where
  exists_text := (IsListed.of_itemName? h).exists_text
  eq_trim _ htext hwritten := htext.name_eq_trim h hwritten

theorem eq_ofName_of_mem_proseSteps {text : List Char} {s : Step}
    (h : s ∈ proseSteps text) :
    s = Step.ofName s.id s.name := by
  obtain ⟨position, hlt, rfl⟩ := List.mem_mapIdx.mp h
  rfl

/-- The steps of a text are those of the lines outside fences that are listed
and not done, in the order of these lines, numbered, and each with the name of
its line.  Every line is read as the patterns of items say. -/
theorem proseSteps_listed (text : List Char) :
    (∃ positions : List Nat, positions.Pairwise (· < ·) ∧
      (∀ position, position ∈ positions ↔
        ∃ line, OutsideAt (lines text) position line ∧
        IsListed line ∧ ¬ IsDone line) ∧
      List.Forall₂ (fun position s =>
          ∃ line ∈ (lines text)[position]?, IsNameOf line s.name.toList)
        positions (proseSteps text)) ∧
    (proseSteps text).map Step.id =
      (List.range (proseSteps text).length).map stepId ∧
    (∀ s ∈ proseSteps text, s = Step.ofName s.id s.name) ∧
    ∀ line ∈ lines text, itemName? line = patternName? line := by
  refine ⟨⟨itemPlaces false (lines text), pairwise_itemPlaces _ _,
    fun position => mem_itemPlaces_iff_outsideAt, ?_⟩, map_id_proseSteps text,
    fun s => eq_ofName_of_mem_proseSteps, fun line hline => ?_⟩
  · have hnames := forall₂_itemPlaces false (lines text)
    rw [← names_proseSteps, List.forall₂_map_right_iff] at hnames
    apply hnames.imp
    rintro position s ⟨line, hline, hname⟩
    exact ⟨line, hline, isNameOf_of_itemName? hname⟩
  · exact itemName?_eq_patternName?
      (newline_notMem_of_mem_linesFrom List.not_mem_nil line hline)

example :
    (proseSteps
      ("1. First\n- [ ] Second\n- [x] done\n-\n\x60\x60\x60\n- code\n" ++
      "\x60\x60\x60\n* [ ]\n+ Third \n").toList).map (·.name) =
      ["First", "Second", "[ ]", "Third"] := by
  decide

end Workflows.Document
