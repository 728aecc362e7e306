import Workflows.Proofs.Document.Items

/-!
# Items by patterns

Numbers, open boxes, crossed boxes and bullets are each described by a pattern
of parts that is matched with backtracking: a part takes as many characters as
it can, or a name as few, and gives way where the parts behind it do not match.
Tried in this order, the patterns find the same items with the same names.
-/

namespace Workflows.Document

open Text

/-! ## Matching with backtracking -/

/-- A part of a pattern: one character, as many characters as possible, a name
of as few characters as possible but one, and the end of the line. -/
inductive PatternPart where
  | one (test : Char → Bool)
  | many (test : Char → Bool)
  | name
  | finish

/-- Takes as many characters as leave a rest that matches. -/
def longest {α : Type} (test : Char → Bool) (behind : List Char → Option α) :
    List Char → Option α
  | [] => behind []
  | c :: s =>
      if test c then longest test behind s <|> behind (c :: s)
      else behind (c :: s)

/-- The fewest characters, but one at least, that leave a rest that matches. -/
def shortest {α : Type} (behind : List Char → Option α) :
    List Char → Option (List Char)
  | [] => none
  | c :: s =>
      if c = '\n' then none
      else if (behind s).isSome then some [c]
      else (shortest behind s).map (c :: ·)

/-- The name that a pattern finds at the start of a line, empty for a pattern
without one. -/
def capture? : List PatternPart → List Char → Option (List Char)
  | [], _ => some []
  | .one test :: parts, c :: s => if test c then capture? parts s else none
  | .one _ :: _, [] => none
  | .many test :: parts, s => longest test (capture? parts) s
  | .name :: parts, s => shortest (capture? parts) s
  | .finish :: parts, s => if s.isEmpty then capture? parts [] else none

def isStop (c : Char) : Bool := c == '.' || c == ')'

def gapParts : List PatternPart := [.one isBlank, .many isBlank]

def nameParts : List PatternPart := gapParts ++ [.name, .many isBlank, .finish]

def numberPattern : List PatternPart :=
  [.many isBlank, .one isDecimalDigit, .many isDecimalDigit, .one isStop] ++
    nameParts

def boxParts (test : Char → Bool) : List PatternPart :=
  [.many isBlank, .one isBullet] ++ gapParts ++ [.one (· == '['), .one test,
    .one (· == ']')]

def openPattern : List PatternPart := boxParts (· == ' ') ++ nameParts

def crossedPattern : List PatternPart :=
  boxParts (fun c => c == 'x' || c == 'X') ++ gapParts

def bulletPattern : List PatternPart :=
  [.many isBlank, .one isBullet] ++ nameParts

/-- The name that the first of the patterns finds on a line without a crossed
box. -/
def patternName? (line : List Char) : Option (List Char) :=
  if (capture? crossedPattern line).isSome then none
  else capture? numberPattern line <|> capture? openPattern line <|> capture?
    bulletPattern line

section Matching

variable {s : List Char}

theorem longest_eq {α : Type} {test : Char → Bool}
    {behind : List Char → Option α}
    (h : ∀ c s, test c = true → behind (c :: s) = none) (s : List Char) :
    longest test behind s = behind (s.dropWhile test) := by
  induction s with
  | nil => rfl
  | cons c s ih =>
      by_cases hc : test c = true
      · simp [longest, hc, ih, h c s hc]
      · simp [longest, hc]

theorem capture?_many_one {test other : Char → Bool}
    (h : ∀ c, test c = true → other c = false) (parts : List PatternPart)
    (s : List Char) :
    capture? (.many test :: .one other :: parts) s =
      capture? (.one other :: parts) (s.dropWhile test) := by
  apply longest_eq
  intro c s hc
  simp [capture?, h c hc]

end Matching

/-! ## Names -/

section Names

variable {s line : List Char} {c : Char}

theorem trimEnd_eq_nil_iff : trimEnd s = [] ↔ s.all isBlank = true := by
  simp [trimEnd, List.dropWhile_eq_nil_iff]

theorem trimEnd_cons_of_written (h : (c :: s).all isBlank = false) :
    trimEnd (c :: s) = c :: trimEnd s := by
  cases hblank : s.all isBlank with
  | true =>
      have hc : isBlank c = false := by simpa [hblank] using h
      exact trimEnd_cons hc s
  | false =>
      have hne : (s.reverse.dropWhile isBlank).isEmpty = false := by
        simpa [List.dropWhile_eq_nil_iff] using hblank
      simp [trimEnd, List.dropWhile_append, hne]

theorem capture?_blank_finish (s : List Char) :
    capture? [.many isBlank, .finish] s = if s.all isBlank then some []
      else none := by
  have hlongest : capture? [.many isBlank, .finish] s =
      capture? [.finish] (s.dropWhile isBlank) :=
    longest_eq (fun c s _ => rfl) s
  rw [hlongest, capture?, capture?]
  congr 1
  simp [List.dropWhile_eq_nil_iff]

theorem capture?_name (hs : '\n' ∉ c :: s) :
    capture? [.name, .many isBlank, .finish] (c :: s) =
      some (c :: trimEnd s) := by
  rw [capture?]
  induction s generalizing c with
  | nil =>
      have hc : c ≠ '\n' := by simpa [eq_comm] using hs
      simp [shortest, hc, capture?_blank_finish]
  | cons d s ih =>
      obtain ⟨hc, hmore⟩ := List.ne_and_not_mem_of_not_mem_cons hs
      rw [shortest, if_neg hc.symm, capture?_blank_finish]
      cases hblank : (d :: s).all isBlank with
      | true => simp [trimEnd_eq_nil_iff.mpr hblank]
      | false => simp [ih hmore, trimEnd_cons_of_written hblank]

theorem longest_isBlank_name (hs : '\n' ∉ s) :
    longest isBlank (capture? [.name, .many isBlank, .finish]) s =
      match s.dropWhile isBlank with
      | [] => s.getLast?.map fun c => [c]
      | body => some (trimEnd body) := by
  induction s with
  | nil => rfl
  | cons c s ih =>
      have hmore : '\n' ∉ s := List.not_mem_of_not_mem_cons hs
      cases hc : isBlank c with
      | false => simp [longest, hc, capture?_name hs, trimEnd_cons hc]
      | true =>
          rw [longest, if_pos hc, ih hmore, capture?_name hs,
            List.dropWhile_cons_of_pos hc]
          cases hrest : s.dropWhile isBlank with
          | cons d rest => rfl
          | nil =>
              have hblank : s.all isBlank = true := by
                simpa [List.dropWhile_eq_nil_iff] using hrest
              cases s with
              | nil => rfl
              | cons d s => simp [List.getLast?_cons]

theorem capture?_nameParts (hs : '\n' ∉ s) :
    capture? nameParts s = itemText? s := by
  cases s with
  | nil => rfl
  | cons c s =>
      have hmore : '\n' ∉ s := List.not_mem_of_not_mem_cons hs
      cases hc : isBlank c with
      | false => simp [nameParts, gapParts, capture?, itemText?, hc]
      | true =>
          have hname : capture? nameParts (c :: s) =
              longest isBlank (capture? [.name, .many isBlank, .finish]) s := by
            simp [nameParts, gapParts, capture?, hc]
          rw [hname, longest_isBlank_name hmore, itemText?,
            List.takeWhile_cons_of_pos hc, List.dropWhile_cons_of_pos hc]
          cases hrest : s.dropWhile isBlank with
          | cons d rest => rfl
          | nil =>
              have htake : s.takeWhile isBlank = s :=
                List.takeWhile_eq_self_iff.mpr
                  (List.dropWhile_eq_nil_iff.mp hrest)
              rw [htake]
              cases s with
              | nil => rfl
              | cons d s => simp [List.getLast?_cons]

end Names

/-! ## Markers -/

section Markers

variable {line : List Char}

theorem newline_notMem_dropWhile (p : Char → Bool) (h : '\n' ∉ line) :
    '\n' ∉ line.dropWhile p :=
  fun hmem => h ((List.dropWhile_sublist p).subset hmem)

theorem isStop_of_isDecimalDigit {c : Char} (h : isDecimalDigit c = true) :
    isStop c = false := by
  have hpoint : c ≠ '.' := ne_of_isDecimalDigit h (by decide)
  have hbracket : c ≠ ')' := ne_of_isDecimalDigit h (by decide)
  simp [isStop, hpoint, hbracket]

theorem isBullet_of_isBlank {c : Char} (h : isBlank c = true) :
    isBullet c = false := by
  by_contra hbullet
  simp [isBlank_of_isBullet (by simpa using hbullet)] at h

theorem capture?_stop : '\n' ∉ line → capture? (.one isStop :: nameParts) line =
    match line with
    | '.' :: rest | ')' :: rest => itemText? rest
    | _ => none := by
  intro h
  cases line with
  | nil => rfl
  | cons c rest =>
      rw [capture?, capture?_nameParts (List.not_mem_of_not_mem_cons h)]
      by_cases hpoint : c = '.'
      · simp [hpoint, isStop]
      · by_cases hbracket : c = ')'
        · simp [hbracket, isStop]
        · simp [hpoint, hbracket, isStop]

theorem numbered?_eq_capture? (hline : '\n' ∉ line) :
    numbered? line = capture? numberPattern line := by
  have hblanks : capture? numberPattern line =
      capture? (.one isDecimalDigit :: .many isDecimalDigit :: .one isStop ::
        nameParts)
        (trimStart line) :=
    capture?_many_one (fun c => isDecimalDigit_of_isBlank) _ _
  have hstart : '\n' ∉ trimStart line := newline_notMem_dropWhile isBlank hline
  rw [hblanks, numbered?]
  generalize trimStart line = s at hstart
  cases s with
  | nil => rfl
  | cons c s =>
      cases hc : isDecimalDigit c with
      | false => simp [capture?, hc]
      | true =>
          have hdigits :
              capture? (.many isDecimalDigit :: .one isStop :: nameParts) s =
              capture? (.one isStop :: nameParts)
                (s.dropWhile isDecimalDigit) :=
            capture?_many_one (fun d => isStop_of_isDecimalDigit) _ _
          have hs :=
            newline_notMem_dropWhile isDecimalDigit
              (List.not_mem_of_not_mem_cons hstart)
          rw [capture?, if_pos hc, hdigits, capture?_stop hs]
          simp only [List.takeWhile_cons_of_pos hc,
            List.dropWhile_cons_of_pos hc]
          rfl

theorem capture?_bullet (parts : List PatternPart) (line : List Char) :
    capture? (.many isBlank :: .one isBullet :: parts) line =
      (afterBullet? line).bind (capture? parts) := by
  rw [capture?_many_one fun c => isBullet_of_isBlank, afterBullet?]
  change capture? _ (trimStart line) = _
  cases trimStart line with
  | nil => rfl
  | cons c rest =>
      by_cases hbullet : isBullet c = true
      · rcases eq_of_isBullet hbullet with rfl | rfl | rfl <;> rfl
      · have hne : c ≠ '-' ∧ c ≠ '*' ∧ c ≠ '+' := by
          simpa [isBullet, and_assoc] using hbullet
        simp [capture?, hbullet, hne]

theorem capture?_gap {test : Char → Bool}
    (h : ∀ c, isBlank c = true → test c = false) (parts : List PatternPart)
    (line : List Char) :
    capture? (.many isBlank :: .one isBullet ::
      (gapParts ++ .one test :: parts)) line =
      (afterBulletBlanks? line).bind (capture? (.one test :: parts)) := by
  rw [capture?_bullet, afterBulletBlanks?]
  cases afterBullet? line with
  | none => rfl
  | some rest =>
      cases rest with
      | nil => rfl
      | cons c rest =>
          change
            (if isBlank c then
              capture? (.many isBlank :: .one test :: parts) rest else none) =
              (if isBlank c then some (trimStart rest) else none).bind _
          split
          · exact capture?_many_one h parts rest
          · rfl

theorem capture?_box (test : Char → Bool) (parts : List PatternPart)
    (line : List Char) :
    capture? (boxParts test ++ parts) line =
      (afterBulletBlanks? line).bind
        (capture? (.one (· == '[') :: .one test ::
          .one (· == ']') :: parts)) := by
  apply capture?_gap
  intro c hc
  by_contra hbracket
  obtain rfl : c = '[' := by simpa using hbracket
  cases hc

theorem newline_notMem_of_afterBulletBlanks? {rest : List Char}
    (hline : '\n' ∉ line) (h : afterBulletBlanks? line = some rest) :
    '\n' ∉ rest := by
  obtain ⟨indent, c, gap, -, -, -, -, rfl⟩ := exists_of_afterBulletBlanks? h
  intro hmem
  exact hline (by simp [hmem])

theorem unchecked?_eq_capture? (hline : '\n' ∉ line) :
    unchecked? line = capture? openPattern line := by
  rw [openPattern, capture?_box, unchecked?]
  cases hafter : afterBulletBlanks? line with
  | none => rfl
  | some rest =>
      have hrest := newline_notMem_of_afterBulletBlanks? hline hafter
      rcases rest with _ | ⟨c, _ | ⟨d, _ | ⟨e, rest⟩⟩⟩
      · rfl
      · simp [capture?]
      · simp [capture?]
      · have hname : capture? nameParts rest = itemText? rest :=
          capture?_nameParts fun hmem => hrest (by simp [hmem])
        by_cases hc : c = '[' <;> by_cases hd : d = ' ' <;> by_cases he :
          e = ']' <;>
          simp [capture?, hc, hd, he, hname]

theorem isSome_longest {test : Char → Bool} (s : List Char) :
    (longest test (capture? []) s).isSome = true := by
  induction s with
  | nil => rfl
  | cons c s ih => by_cases hc : test c = true <;> simp [longest, capture?, hc]

theorem isSome_capture?_gapParts (c : Char) (s : List Char) :
    (capture? gapParts (c :: s)).isSome = isBlank c := by
  cases hc : isBlank c with
  | false => simp [gapParts, capture?, hc]
  | true => simpa [gapParts, capture?, hc] using isSome_longest s

theorem isChecked_eq_capture? (line : List Char) :
    isChecked line = (capture? crossedPattern line).isSome := by
  rw [crossedPattern, capture?_box, isChecked]
  cases afterBulletBlanks? line with
  | none => rfl
  | some rest =>
      rcases rest with _ | ⟨c, _ | ⟨d, _ | ⟨e, _ | ⟨blank, rest⟩⟩⟩⟩
      · rfl
      · simp [capture?]
      · simp [capture?]
      · simp [capture?, gapParts]
      · have hgap := isSome_capture?_gapParts blank rest
        by_cases hc : c = '[' <;> by_cases hx : d = 'x' <;> by_cases hX :
          d = 'X' <;>
          by_cases he : e = ']' <;> simp [capture?, hc, hx, hX, he, hgap]

theorem bullet?_eq_capture? (hline : '\n' ∉ line) :
    bullet? line = capture? bulletPattern line := by
  change _ = capture? (.many isBlank :: .one isBullet :: nameParts) line
  rw [capture?_bullet, bullet?]
  cases hafter : afterBullet? line with
  | none => rfl
  | some rest =>
      obtain ⟨indent, c, -, -, rfl⟩ := exists_of_afterBullet? hafter
      exact (capture?_nameParts fun hmem => hline (by simp [hmem])).symm

/-- A line is read as the patterns say. -/
theorem itemName?_eq_patternName? (hline : '\n' ∉ line) :
    itemName? line = patternName? line := by
  rw [itemName?, patternName?, isChecked_eq_capture?,
    numbered?_eq_capture? hline, unchecked?_eq_capture? hline,
    bullet?_eq_capture? hline]

end Markers

end Workflows.Document
