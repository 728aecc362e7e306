import Workflows.Proofs.Document.Fences

/-!
# Items and their names

An item is a marker behind blanks, and its name is the text behind the marker.
The name is trimmed and has something to read, but for a marker with two blanks
or more and nothing else behind it: of these the last is the name.
-/

namespace Workflows.Document

open Text

/-! ## Characters of a marker -/

def isBullet (c : Char) : Bool := c == '-' || c == '*' || c == '+'

section Characters

variable {c : Char}

theorem isDecimalDigit_of_isBlank (h : isBlank c = true) :
    isDecimalDigit c = false := by
  simp only [isBlank, Bool.or_eq_true, Bool.and_eq_true, decide_eq_true_eq,
    beq_iff_eq] at h
  simp only [isDecimalDigit, zeroDigits, List.any_cons, List.any_nil,
    Bool.or_false, Bool.or_eq_false_iff, Bool.and_eq_false_iff,
    decide_eq_false_iff_not]
  omega

theorem isBlank_of_isDecimalDigit (h : isDecimalDigit c = true) :
    isBlank c = false := by
  rw [Bool.eq_false_iff]
  intro hblank
  rw [isDecimalDigit_of_isBlank hblank] at h
  cases h

theorem ne_of_isDecimalDigit {mark : Char} (h : isDecimalDigit c = true)
    (hmark : isDecimalDigit mark = false) : c ≠ mark := by
  rintro rfl
  rw [h] at hmark
  cases hmark

theorem eq_of_isBullet (h : isBullet c = true) :
    c = '-' ∨ c = '*' ∨ c = '+' := by
  simpa [isBullet, or_assoc] using h

theorem isBlank_of_isBullet (h : isBullet c = true) : isBlank c = false := by
  rcases eq_of_isBullet h with rfl | rfl | rfl <;> decide

theorem isDecimalDigit_of_isBullet (h : isBullet c = true) :
    isDecimalDigit c = false := by
  rcases eq_of_isBullet h with rfl | rfl | rfl <;> decide

end Characters

/-! ## Reading behind blanks -/

section Indented

variable {indent gap rest : List Char} {c : Char}
  (hindent : ∀ d ∈ indent, isBlank d = true)

include hindent

theorem trimStart_indented (hc : isBlank c = false) (rest : List Char) :
    trimStart (indent ++ c :: rest) = c :: rest := by
  rw [trimStart_append_of_blank hindent, trimStart_eq_self hc]

theorem afterBullet?_indented (hbullet : isBullet c = true) (rest : List Char) :
    afterBullet? (indent ++ c :: rest) = some rest := by
  rw [afterBullet?, trimStart_indented hindent (isBlank_of_isBullet hbullet)]
  rcases eq_of_isBullet hbullet with rfl | rfl | rfl <;> rfl

theorem afterBulletBlanks?_indented (hbullet : isBullet c = true)
    (hne : gap ≠ []) (hgap : ∀ d ∈ gap, isBlank d = true) (rest : List Char) :
    afterBulletBlanks? (indent ++ c :: (gap ++ rest)) =
      some (trimStart rest) := by
  obtain ⟨d, gap, rfl⟩ := List.exists_cons_of_ne_nil hne
  obtain ⟨hd, hgap⟩ := List.forall_mem_cons.mp hgap
  simp [afterBulletBlanks?, afterBullet?_indented hindent hbullet, hd,
    trimStart_append_of_blank hgap]

theorem numbered?_of_isBullet (hbullet : isBullet c = true) (rest : List Char) :
    numbered? (indent ++ c :: rest) = none := by
  simp [numbered?, trimStart_indented hindent (isBlank_of_isBullet hbullet),
    isDecimalDigit_of_isBullet hbullet]

theorem isFence_of_isBullet (hbullet : isBullet c = true) (rest : List Char) :
    isFence (indent ++ c :: rest) = false := by
  rw [isFence, trimStart_indented hindent (isBlank_of_isBullet hbullet)]
  rcases eq_of_isBullet hbullet with rfl | rfl | rfl <;> rfl

end Indented

section Digits

variable {line rest : List Char} {d : Char}
  (hstart : trimStart line = d :: rest) (hdigit : isDecimalDigit d = true)

include hstart hdigit

theorem afterBullet?_of_isDecimalDigit : afterBullet? line = none := by
  unfold afterBullet?
  rw [hstart]
  split
  · next heq =>
      exact absurd (List.cons.inj heq).1
        (ne_of_isDecimalDigit hdigit (by decide))
  · next heq =>
      exact absurd (List.cons.inj heq).1
        (ne_of_isDecimalDigit hdigit (by decide))
  · next heq =>
      exact absurd (List.cons.inj heq).1
        (ne_of_isDecimalDigit hdigit (by decide))
  · rfl

theorem isFence_of_isDecimalDigit : isFence line = false := by
  unfold isFence
  rw [hstart]
  split
  · next heq =>
      exact absurd (List.cons.inj heq).1
        (ne_of_isDecimalDigit hdigit (by decide))
  · next heq =>
      exact absurd (List.cons.inj heq).1
        (ne_of_isDecimalDigit hdigit (by decide))
  · rfl

end Digits

theorem itemName?_of_afterBullet? {line : List Char}
    (h : afterBullet? line = none) :
    itemName? line = numbered? line := by
  simp [itemName?, isChecked, unchecked?, bullet?, afterBulletBlanks?, h]

theorem numbered?_eq {line digits : List Char} {stop : Char} (hne : digits ≠ [])
    (hdigits : ∀ d ∈ digits, isDecimalDigit d = true)
    (hstop : stop = '.' ∨ stop = ')') (rest : List Char)
    (hstart : trimStart line = digits ++ stop :: rest) :
    numbered? line = itemText? rest := by
  have hend : isDecimalDigit stop = false := by
    rcases hstop with rfl | rfl <;> decide
  have htake : (digits ++ stop :: rest).takeWhile isDecimalDigit = digits := by
    simp [List.takeWhile_append_of_pos hdigits, hend]
  have hdrop : (digits ++ stop :: rest).dropWhile isDecimalDigit =
      stop :: rest := by
    simp [List.dropWhile_append_of_pos hdigits, hend]
  rw [numbered?, hstart, htake, hdrop, if_neg (by simpa using hne)]
  rcases hstop with rfl | rfl <;> rfl

/-! ## Items -/

/-- What stands before the name of an item: a number, a bullet, or a bullet with
an open box. -/
inductive IsMarker : List Char → Prop
  | number {digits : List Char} {stop : Char} (hne : digits ≠ [])
      (hdigits : ∀ d ∈ digits, isDecimalDigit d = true)
      (hstop : stop = '.' ∨ stop = ')') :
      IsMarker (digits ++ [stop])
  | bullet {c : Char} (hbullet : isBullet c = true) : IsMarker [c]
  | box {c : Char} {gap : List Char} (hbullet : isBullet c = true)
      (hne : gap ≠ []) (hgap : ∀ d ∈ gap, isBlank d = true) :
      IsMarker (c :: (gap ++ ['[', ' ', ']']))

inductive IsItem (rest : List Char) : List Char → Prop
  | intro {indent marker : List Char} (hindent : ∀ d ∈ indent, isBlank d = true)
      (hmarker : IsMarker marker) : IsItem rest (indent ++ (marker ++ rest))

theorem IsMarker.isItem {indent marker : List Char} (h : IsMarker marker)
    (hindent : ∀ d ∈ indent, isBlank d = true) (rest : List Char) :
    IsItem rest (indent ++ (marker ++ rest)) :=
  ⟨hindent, h⟩

section Items

variable {line rest name : List Char}

theorem takeWhile_append_trimStart (line : List Char) :
    line.takeWhile isBlank ++ trimStart line = line :=
  List.takeWhile_append_dropWhile

theorem blank_of_mem_takeWhile (line : List Char) :
    ∀ d ∈ line.takeWhile isBlank, isBlank d = true :=
  fun _ => List.mem_takeWhile_imp

theorem exists_of_numbered? (h : numbered? line = some name) :
    ∃ rest, IsItem rest line ∧ itemText? rest = some name := by
  unfold numbered? at h
  have hdigits : ∀ d ∈ (trimStart line).takeWhile isDecimalDigit,
      isDecimalDigit d = true :=
    fun _ => List.mem_takeWhile_imp
  have hstart :=
    List.takeWhile_append_dropWhile (p := isDecimalDigit) (l := trimStart line)
  dsimp only at h
  split at h
  · cases h
  · next hne =>
      replace hne : (trimStart line).takeWhile isDecimalDigit ≠ [] := by
        simpa using hne
      have hitem (stop : Char) (rest : List Char) (hstop : stop = '.' ∨
          stop = ')')
          (hrest : (trimStart line).dropWhile isDecimalDigit = stop :: rest) :
          IsItem rest line := by
        have hitem := (IsMarker.number hne hdigits hstop).isItem
          (blank_of_mem_takeWhile line) rest
        rw [← takeWhile_append_trimStart line, ← hstart, hrest]
        simpa using hitem
      split at h
      · next rest hrest => exact ⟨rest, hitem '.' rest (.inl rfl) hrest, h⟩
      · next rest hrest => exact ⟨rest, hitem ')' rest (.inr rfl) hrest, h⟩
      · cases h

theorem exists_of_afterBullet? (h : afterBullet? line = some rest) :
    ∃ indent c, (∀ d ∈ indent, isBlank d = true) ∧ isBullet c = true ∧
      line = indent ++ c :: rest := by
  have hread {c : Char} {more : List Char} (hstart : trimStart line = c :: more)
      (hmore : some more = some rest) :
      line = line.takeWhile isBlank ++ c :: rest := by
    rw [← Option.some.inj hmore, ← hstart, takeWhile_append_trimStart]
  unfold afterBullet? at h
  split at h
  · next hstart =>
      exact ⟨_, '-', blank_of_mem_takeWhile line, rfl, hread hstart h⟩
  · next hstart =>
      exact ⟨_, '*', blank_of_mem_takeWhile line, rfl, hread hstart h⟩
  · next hstart =>
      exact ⟨_, '+', blank_of_mem_takeWhile line, rfl, hread hstart h⟩
  · cases h

theorem exists_gap_of_afterBulletBlanks?
    (h : afterBulletBlanks? line = some rest) :
    ∃ gap, gap ≠ [] ∧ (∀ d ∈ gap, isBlank d = true) ∧
      afterBullet? line = some (gap ++ rest) := by
  unfold afterBulletBlanks? at h
  split at h
  · next d more hmore =>
      obtain ⟨hblank, hrest⟩ := Option.ite_none_right_eq_some.mp h
      refine ⟨d :: more.takeWhile isBlank, List.cons_ne_nil d _,
        List.forall_mem_cons.mpr ⟨hblank, blank_of_mem_takeWhile more⟩, ?_⟩
      rw [← Option.some.inj hrest, List.cons_append, takeWhile_append_trimStart,
        hmore]
  · cases h

theorem exists_of_afterBulletBlanks? (h : afterBulletBlanks? line = some rest) :
    ∃ indent c gap, (∀ d ∈ indent, isBlank d = true) ∧ isBullet c = true ∧
    gap ≠ [] ∧
      (∀ d ∈ gap, isBlank d = true) ∧ line = indent ++ c :: (gap ++ rest) := by
  obtain ⟨gap, hne, hgap, hafter⟩ := exists_gap_of_afterBulletBlanks? h
  obtain ⟨indent, c, hindent, hbullet, rfl⟩ := exists_of_afterBullet? hafter
  exact ⟨indent, c, gap, hindent, hbullet, hne, hgap, rfl⟩

theorem exists_of_unchecked? (h : unchecked? line = some name) :
    ∃ rest, IsItem rest line ∧ itemText? rest = some name := by
  unfold unchecked? at h
  split at h
  · next rest hrest =>
      obtain ⟨indent, c, gap, hindent, hbullet, hne, hgap, rfl⟩ :=
        exists_of_afterBulletBlanks? hrest
      refine ⟨rest, ?_, h⟩
      simpa using (IsMarker.box hbullet hne hgap).isItem hindent rest
  · cases h

theorem exists_of_bullet? (h : bullet? line = some name) :
    ∃ rest, IsItem rest line ∧ itemText? rest = some name := by
  obtain ⟨rest, hrest, htext⟩ := Option.bind_eq_some_iff.mp h
  obtain ⟨indent, c, hindent, hbullet, rfl⟩ := exists_of_afterBullet? hrest
  refine ⟨rest, ?_, htext⟩
  simpa using (IsMarker.bullet hbullet).isItem hindent rest

theorem exists_of_itemName? (h : itemName? line = some name) :
    ∃ rest, IsItem rest line ∧ itemText? rest = some name := by
  unfold itemName? at h
  split at h
  · cases h
  · simp only [Option.orElse_eq_orElse, Option.orElse_eq_or,
      Option.or_eq_some_iff] at h
    rcases h with h | ⟨-, h | ⟨-, h⟩⟩
    · exact exists_of_numbered? h
    · exact exists_of_unchecked? h
    · exact exists_of_bullet? h

end Items

/-! ## Text behind a marker -/

/-- A name with something to read, and no blanks around it. -/
structure IsMeaningful (name : List Char) : Prop where
  written : ∃ c ∈ name, isBlank c = false
  first : ∀ c ∈ name.head?, isBlank c = false
  last : ∀ c ∈ name.getLast?, isBlank c = false

structure IsGap (s : List Char) : Prop where
  blank : ∀ c ∈ s, isBlank c = true
  two_le : 2 ≤ s.length

section ItemText

variable {s name : List Char}

theorem last_trimEnd (s : List Char) :
    ∀ c ∈ (trimEnd s).getLast?, isBlank c = false := by
  intro c hc
  rw [trimEnd, List.getLast?_reverse] at hc
  have hhead := List.head?_dropWhile_not isBlank s.reverse
  rw [hc] at hhead
  simpa using hhead

theorem trimEnd_cons {c : Char} (hc : isBlank c = false) (s : List Char) :
    trimEnd (c :: s) = c :: trimEnd s := by
  rw [trimEnd, trimEnd, List.reverse_cons, List.dropWhile_append]
  cases s.reverse.dropWhile isBlank <;> simp [hc]

theorem isMeaningful_trimEnd {c : Char} (hc : isBlank c = false)
    (s : List Char) :
    IsMeaningful (trimEnd (c :: s)) := by
  refine ⟨⟨c, ?_, hc⟩, ?_, last_trimEnd (c :: s)⟩ <;> simp [trimEnd_cons hc, hc]

theorem IsMeaningful.ne_nil (h : IsMeaningful name) : name ≠ [] := by
  obtain ⟨c, hc, -⟩ := h.written
  exact List.ne_nil_of_mem hc

theorem IsMeaningful.trim_eq (h : IsMeaningful name) : trim name = name := by
  obtain ⟨c, rest, rfl⟩ := List.exists_cons_of_ne_nil h.ne_nil
  rw [trim, trimStart_eq_self (h.first c rfl), trimEnd_eq_self h.last]

theorem isMeaningful_trim (h : trim s ≠ []) : IsMeaningful (trim s) := by
  cases hstart : trimStart s with
  | nil => exact absurd (by rw [trim, hstart, trimEnd_nil]) h
  | cons c rest =>
      have hc := List.head?_dropWhile_not isBlank s
      rw [← trimStart, hstart] at hc
      rw [trim, hstart]
      exact isMeaningful_trimEnd (by simpa using hc) rest

theorem not_isMeaningful_singleton {c : Char} (hc : isBlank c = true) :
    ¬ IsMeaningful [c] := by
  intro h
  obtain ⟨d, hd, hblank⟩ := h.written
  rw [List.mem_singleton.mp hd, hc] at hblank
  cases hblank

theorem isMeaningful_or_isGap (h : itemText? s = some name) :
    IsMeaningful name ∨ IsGap s := by
  have hs := takeWhile_append_trimStart s
  have hhead := List.head?_dropWhile_not isBlank s
  unfold itemText? at h
  dsimp only at h
  split at h
  · next hrest =>
      obtain ⟨hlength, -⟩ := Option.ite_none_right_eq_some.mp h
      rw [trimStart, hrest, List.append_nil] at hs
      right
      rw [hs] at hlength
      exact ⟨by rw [← hs]; exact blank_of_mem_takeWhile s, hlength⟩
  · next body hbody =>
      obtain ⟨-, hname⟩ := Option.ite_none_left_eq_some.mp h
      left
      obtain ⟨c, rest, hcons⟩ := List.exists_cons_of_ne_nil hbody
      rw [hcons] at hhead hname
      rw [← Option.some.inj hname]
      exact isMeaningful_trimEnd (by simpa using hhead) rest

theorem itemText?_append {gap rest : List Char} {c : Char} (hne : gap ≠ [])
    (hgap : ∀ d ∈ gap, isBlank d = true) (hc : isBlank c = false) :
    itemText? (gap ++ c :: rest) = some (trimEnd (c :: rest)) := by
  have htake : (gap ++ c :: rest).takeWhile isBlank = gap := by
    simp [List.takeWhile_append_of_pos hgap, hc]
  have hdrop : (gap ++ c :: rest).dropWhile isBlank = c :: rest := by
    simp [List.dropWhile_append_of_pos hgap, hc]
  simp [itemText?, htake, hdrop, hne]

theorem IsGap.itemText?_eq (h : IsGap s) :
    ∃ c, isBlank c = true ∧ itemText? s = some [c] := by
  have htake : s.takeWhile isBlank = s := List.takeWhile_eq_self_iff.mpr h.blank
  have hdrop : s.dropWhile isBlank = [] := List.dropWhile_eq_nil_iff.mpr h.blank
  cases hlast : s.getLast? with
  | none =>
      have htwo := h.two_le
      simp [List.getLast?_eq_none_iff.mp hlast] at htwo
  | some c =>
      refine ⟨c, h.blank c (List.mem_of_getLast? hlast), ?_⟩
      simp [itemText?, hdrop, htake, hlast, h.two_le]

end ItemText

/-! ## Bare markers -/

/-- A line of a marker with blanks behind it, two or more, and nothing else. -/
inductive IsBare (line : List Char) : Prop
  | intro {gap : List Char} (hgap : IsGap gap) (hitem : IsItem gap line)

theorem itemName?_number {indent digits : List Char} {stop : Char}
    (hindent : ∀ d ∈ indent, isBlank d = true) (hne : digits ≠ [])
    (hdigits : ∀ d ∈ digits, isDecimalDigit d = true)
    (hstop : stop = '.' ∨ stop = ')') (rest : List Char) :
    itemName? (indent ++ (digits ++ stop :: rest)) = itemText? rest ∧
      isFence (indent ++ (digits ++ stop :: rest)) = false := by
  obtain ⟨d, more, rfl⟩ := List.exists_cons_of_ne_nil hne
  have hd : isDecimalDigit d = true := hdigits d List.mem_cons_self
  have hstart : trimStart (indent ++ (d :: more ++ stop :: rest)) =
      d :: (more ++ stop :: rest) :=
    trimStart_indented hindent (isBlank_of_isDecimalDigit hd) _
  refine ⟨?_, isFence_of_isDecimalDigit hstart hd⟩
  rw [itemName?_of_afterBullet? (afterBullet?_of_isDecimalDigit hstart hd)]
  exact numbered?_eq hne hdigits hstop rest hstart

theorem IsItem.itemName?_eq {gap line : List Char} (h : IsItem gap line)
    (hgap : IsGap gap) :
    itemName? line = itemText? gap ∧ isFence line = false := by
  obtain ⟨hindent, hmarker⟩ := h
  obtain ⟨c, -, hname⟩ := hgap.itemText?_eq
  cases hmarker with
  | number hne hdigits hstop =>
      simpa using itemName?_number hindent hne hdigits hstop gap
  | bullet hbullet =>
      have hne : gap ≠ [] := by
        rintro rfl
        simpa using hgap.two_le
      have hbox := afterBulletBlanks?_indented hindent hbullet hne hgap.blank []
      rw [List.append_nil] at hbox
      have hnumber := numbered?_of_isBullet hindent hbullet gap
      have hafter := afterBullet?_indented hindent hbullet gap
      refine ⟨?_, isFence_of_isBullet hindent hbullet gap⟩
      simp [itemName?, isChecked, unchecked?, bullet?, hbox, hnumber, hafter]
  | @box c g hbullet hne hblank =>
      have hbox :=
        afterBulletBlanks?_indented hindent hbullet hne hblank
          ('[' :: ' ' :: ']' :: gap)
      have hnumber :=
        numbered?_of_isBullet hindent hbullet (g ++ '[' :: ' ' :: ']' :: gap)
      have hfence :=
        isFence_of_isBullet hindent hbullet (g ++ '[' :: ' ' :: ']' :: gap)
      rw [trimStart_eq_self (by decide)] at hbox
      simp only [List.cons_append, List.append_assoc, List.nil_append]
      refine ⟨?_, hfence⟩
      simp [itemName?, isChecked, unchecked?, hbox, hnumber, hname]

theorem IsBare.exists_itemName? {line : List Char} (h : IsBare line) :
    ∃ c, isBlank c = true ∧ itemName? line = some [c] := by
  obtain ⟨hgap, hitem⟩ := h
  obtain ⟨c, hc, htext⟩ := hgap.itemText?_eq
  exact ⟨c, hc, (hitem.itemName?_eq hgap).1.trans htext⟩

theorem isMeaningful_or_isBare {line name : List Char}
    (h : itemName? line = some name) :
    IsMeaningful name ∨ IsBare line := by
  obtain ⟨rest, hitem, htext⟩ := exists_of_itemName? h
  rcases isMeaningful_or_isGap htext with hname | hgap
  · exact .inl hname
  · exact .inr ⟨hgap, hitem⟩

theorem mem_names_iff {text name : List Char} :
    (∃ s ∈ proseSteps text, s.name.toList = name) ↔
      ∃ line, IsOutside (lines text) line ∧ itemName? line = some name := by
  rw [← mem_itemNames_iff, ← names_proseSteps, List.mem_map]

/-- All names of a text are meaningful exactly where no bare marker stands
outside fences, and a name that is not is a single blank. -/
theorem names_meaningful_iff (text : List Char) :
    ((∀ s ∈ proseSteps text, IsMeaningful s.name.toList) ↔
      ∀ line, IsOutside (lines text) line → ¬ IsBare line) ∧
    ∀ s ∈ proseSteps text, IsMeaningful s.name.toList ∨
      ∃ c, isBlank c = true ∧ s.name.toList = [c] := by
  refine ⟨⟨fun h line houtside hbare => ?_, fun h s hs => ?_⟩, fun s hs => ?_⟩
  · obtain ⟨c, hc, hname⟩ := hbare.exists_itemName?
    obtain ⟨s, hs, hsname⟩ := mem_names_iff.mpr ⟨line, houtside, hname⟩
    have hmeaningful := h s hs
    rw [hsname] at hmeaningful
    exact not_isMeaningful_singleton hc hmeaningful
  · obtain ⟨line, houtside, hname⟩ := mem_names_iff.mp ⟨s, hs, rfl⟩
    exact (isMeaningful_or_isBare hname).resolve_right (h line houtside)
  · obtain ⟨line, -, hname⟩ := mem_names_iff.mp ⟨s, hs, rfl⟩
    rcases isMeaningful_or_isBare hname with hmeaningful | hbare
    · exact .inl hmeaningful
    · obtain ⟨c, hc, hblank⟩ := hbare.exists_itemName?
      exact .inr ⟨c, hc, Option.some.inj (hname.symm.trans hblank)⟩

/-- A bullet with two blanks behind it is a step whose name is a blank. -/
theorem names_not_meaningful :
    ¬ ∀ text, ∀ s ∈ proseSteps text, IsMeaningful s.name.toList := by
  intro h
  have hstep : [' '] ∈ (proseSteps "-  \n".toList).map (·.name.toList) := by
    rw [names_proseSteps]
    decide
  obtain ⟨s, hs, hname⟩ := List.mem_map.mp hstep
  have hmeaningful := h _ s hs
  rw [hname] at hmeaningful
  exact not_isMeaningful_singleton (by decide) hmeaningful

end Workflows.Document
