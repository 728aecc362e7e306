import Workflows.Proofs.Yaml.PlainLine
import Workflows.Proofs.Yaml.Values
import Workflows.Yaml.Token

/-!
# Steps outside of brackets

The lexer goes over blanks, comments and breaks to the next token, and reads it
by its first character.  What starts as a plain scalar does is read as one, and
a colon that ends a word makes a value.
-/

namespace Workflows.Yaml

/-! ## Characters -/

structure IsSolid (c : Char) : Prop where
  not_space : isSpace c = false
  not_break : isBreak c = false
  not_comment : c ≠ '#'

/-- The characters that a plain scalar cannot start with, or only before a
character that is no blank. -/
def reserved : List Char :=
  ['-', '?', ':', ',', '[', ']', '{', '}', '#', '&', '*', '!', '|',
    '>', '\x27', '\x22', '%', '@', '\x60']

theorem startsPlain_cons (c : Char) (rest : List Char) :
    Lexer.startsPlain false (c :: rest) =
      (!(isSpace c || isBreak c || reserved.contains c) ||
        (c == '-' && !rest.head?.any isSpace) ||
        ((c == '?' || c == ':') && !endsWord rest)) := by
  have hchars : "-?:,[]\x7b\x7d#&*!|>\x27\x22%@\x60".toList = reserved := by
    decide
  rw [Lexer.startsPlain, hchars]
  rfl

theorem startsPlain_cases {c : Char} {rest : List Char}
    (h : Lexer.startsPlain false (c :: rest) = true) :
    (isSpace c = false ∧ isBreak c = false ∧ ∀ d ∈ reserved, c ≠ d) ∨ c = '-' ∨
      (c = '?' ∨ c = ':') ∧ endsWord rest = false := by
  simp only [startsPlain_cons, Bool.or_eq_true, Bool.and_eq_true,
    Bool.not_eq_true', beq_iff_eq] at h
  rcases h with (hother | ⟨hdash, -⟩) | ⟨hmark, hword⟩
  · simp only [Bool.or_eq_false_iff] at hother
    obtain ⟨⟨hspace, hbreak⟩, hnot⟩ := hother
    refine .inl ⟨hspace, hbreak, ?_⟩
    rintro d hd rfl
    exact Bool.false_ne_true (hnot.symm.trans (List.contains_iff_mem.mpr hd))
  · exact .inr (.inl hdash)
  · exact .inr (.inr ⟨hmark, hword⟩)

theorem isSolid_of_startsPlain {c : Char} {rest : List Char}
    (h : Lexer.startsPlain false (c :: rest) = true) : IsSolid c := by
  rcases startsPlain_cases h with ⟨hspace, hbreak, hne⟩ | rfl | ⟨rfl | rfl, -⟩
  · exact ⟨hspace, hbreak, hne '#' (by decide)⟩
  · exact ⟨rfl, rfl, by decide⟩
  · exact ⟨rfl, rfl, by decide⟩
  · exact ⟨rfl, rfl, by decide⟩

theorem startsPlain_append {tail : List Char} (htail : Ends tail) (c : Char)
    (rest : List Char) :
    Lexer.startsPlain false (c :: (rest ++ tail)) =
      Lexer.startsPlain false (c :: rest) := by
  have hhead : (rest ++ tail).head?.any isSpace = rest.head?.any isSpace := by
    cases rest with
    | nil => cases htail <;> rfl
    | cons d rest => rfl
  rw [startsPlain_cons, startsPlain_cons, htail.endsWord_append, hhead]

theorem endsWord_of_dash {rest : List Char}
    (h : Lexer.startsPlain false ('-' :: rest) = true) (hne : rest ≠ [])
    (hline : ∀ c ∈ rest, isBreak c = false) : endsWord rest = false := by
  obtain ⟨c, more, rfl⟩ := List.exists_cons_of_ne_nil hne
  have hspace : isSpace c = false := by
    simpa [startsPlain_cons, reserved] using h
  rw [endsWord, hspace, hline c List.mem_cons_self]
  rfl

theorem ne_nil_of_startsPlain {value : List Char}
    (h : Lexer.startsPlain false value = true) :
    value ≠ [] := by
  rintro rfl
  cases h

theorem plainLine_ne_nil {value : List Char}
    (h : Lexer.startsPlain false value = true) :
    (plainLine true value).1 ≠ [] := by
  cases value with
  | nil => cases h
  | cons c rest =>
      have hsolid := isSolid_of_startsPlain h
      have hcolon : (c == ':' && endsWord rest) = false := by
        rcases startsPlain_cases h with ⟨-, -, hne⟩ | rfl | ⟨rfl | rfl, hword⟩
        · rw [beq_false_of_ne (hne ':' (by decide)), Bool.false_and]
        · rfl
        · rfl
        · rw [hword, Bool.and_false]
      rw [plainLine, hsolid.not_space, hcolon,
        beq_false_of_ne hsolid.not_comment]
      exact List.cons_ne_nil _ _

section Letter

variable {c : Char} (h : c.isAlpha = true)

include h

theorem isSpace_of_isAlpha : isSpace c = false := by
  simp [isSpace, ne_of_isAlpha h]

theorem isBreak_of_isAlpha : isBreak c = false := by
  simp [isBreak, ne_of_isAlpha h]

theorem startsPlain_of_isAlpha (rest : List Char) :
    Lexer.startsPlain false (c :: rest) = true := by
  have hletter : ∀ d ∈ reserved, d.isAlpha = false := by simp [reserved]
  have hnot : reserved.contains c = false := by
    rw [Bool.eq_false_iff]
    intro hmem
    exact Bool.false_ne_true
      ((hletter c (List.contains_iff_mem.mp hmem)).symm.trans h)
  rw [startsPlain_cons, isSpace_of_isAlpha h, isBreak_of_isAlpha h, hnot]
  rfl

end Letter

/-! ## Tokens -/

namespace Cursor

theorem skipWhile_of_head? {c : Cursor} {p : Char → Bool}
    (h : ∀ ch ∈ c.rest.head?, p ch = false) :
    c.skipWhile p = c := by
  have hdrop : c.rest.dropWhile p = c.rest := by
    cases hrest : c.rest with
    | nil => rfl
    | cons ch rest =>
        exact List.dropWhile_cons_of_neg (by simp [h ch (by simp [hrest])])
  rw [skipWhile, hdrop, moveTo_self]

theorem skipWhile_append {c : Cursor} {p : Char → Bool}
    {passed rest : List Char} (hrest : c.rest = passed ++ rest)
    (hpassed : ∀ ch ∈ passed, p ch = true) (hstop : ∀ ch ∈ rest.head?,
      p ch = false) : c.skipWhile p = c.moveTo rest := by
  have hdrop : c.rest.dropWhile p = rest := by
    rw [hrest, List.dropWhile_append_of_pos hpassed]
    cases rest with
    | nil => rfl
    | cons ch rest => exact List.dropWhile_cons_of_neg (by simp [hstop ch rfl])
  rw [skipWhile, hdrop]

theorem startsWith_of_head? {c : Cursor} {p : Char → Bool}
    (h : ∀ ch ∈ c.rest.head?, p ch = false) :
    c.startsWith p = false := by
  unfold startsWith
  split
  · next ch rest hrest => exact h ch (by simp [hrest])
  · rfl

end Cursor

namespace Lexer

variable {c : Cursor}

theorem skipGap_solid (allowed : Bool)
    (hsolid : ∀ ch ∈ c.rest.head?, IsSolid ch)
    (hmark : (c.index == 0 && c.startsWith isMark) = false) (fuel : Nat) :
    skipGap false (fuel + 1) allowed c = (allowed, c) := by
  have hspace :
      c.skipWhile (fun ch => ch == ' ' || ((false || !allowed) && ch == '\t')) =
        c := by
    refine Cursor.skipWhile_of_head? fun ch hch => ?_
    have h := (hsolid ch hch).not_space
    simp only [isSpace, Bool.or_eq_false_iff] at h
    simp [h]
  have hcomment : c.startsWith (· == '#') = false :=
    Cursor.startsWith_of_head? fun ch hch =>
      beq_false_of_ne (hsolid ch hch).not_comment
  have hbreak : c.startsWith isBreak = false :=
    Cursor.startsWith_of_head? fun ch hch => (hsolid ch hch).not_break
  rw [skipGap, hmark, if_neg Bool.false_ne_true, hspace,
    hcomment, if_neg Bool.false_ne_true, hbreak, if_neg Bool.false_ne_true]

theorem skipGap_blank {rest : List Char} (hrest : c.rest = ' ' :: rest)
    (hsolid : ∀ ch ∈ rest.head?, IsSolid ch) (fuel : Nat) :
    skipGap false (fuel + 1) false c = (false, c.moveTo rest) := by
  have hmark : c.startsWith isMark = false := by
    simp [Cursor.startsWith, hrest, isMark]
  have hspace :
      c.skipWhile (fun ch => ch == ' ' || ((false || !false) && ch == '\t')) =
      c.moveTo rest := by
    refine Cursor.skipWhile_append (show c.rest = [' '] ++ rest from hrest)
      (by simp) fun ch hch => ?_
    have h := (hsolid ch hch).not_space
    simp only [isSpace, Bool.or_eq_false_iff] at h
    simp [h]
  have hcomment : (c.moveTo rest).startsWith (· == '#') = false :=
    Cursor.startsWith_of_head? fun ch hch =>
      beq_false_of_ne (hsolid ch hch).not_comment
  have hbreak : (c.moveTo rest).startsWith isBreak = false :=
    Cursor.startsWith_of_head? fun ch hch => (hsolid ch hch).not_break
  rw [skipGap, hmark, Bool.and_false, if_neg Bool.false_ne_true, hspace,
    hcomment, if_neg Bool.false_ne_true, hbreak, if_neg Bool.false_ne_true]

theorem skipGap_comment {comment tail : List Char}
    (hrest : c.rest = '#' :: comment ++ tail)
    (hcomment : ∀ ch ∈ comment, isBreak ch = false) (htail : Ends tail)
    (hsolid : ∀ ch ∈ (tail.drop 1).head?, IsSolid ch) (fuel : Nat) :
    skipGap false (fuel + 2) false c =
      (!tail.isEmpty, (c.moveTo tail).skipLine) := by
  have hrest : c.rest = '#' :: (comment ++ tail) := hrest
  have hmark : c.startsWith isMark = false := by
    simp [Cursor.startsWith, hrest, isMark]
  have hspace :
      c.skipWhile (fun ch => ch == ' ' || ((false || !false) && ch == '\t')) =
        c :=
    Cursor.skipWhile_of_head? (by simp [hrest])
  have hstart : c.startsWith (· == '#') = true := by
    simp [Cursor.startsWith, hrest]
  have hpass : c.skipWhile (!isBreak ·) = c.moveTo tail := by
    refine Cursor.skipWhile_append (show c.rest =
      ('#' :: comment) ++ tail from hrest) ?_ ?_
    · exact List.forall_mem_cons.mpr ⟨rfl,
        fun ch hch => by simp [hcomment ch hch]⟩
    · cases htail with
      | text => simp
      | line => simp [isBreak]
  rw [skipGap, hmark, Bool.and_false, if_neg Bool.false_ne_true, hspace, hstart,
    if_pos rfl, hpass]
  cases htail with
  | text => rfl
  | @line ch next hspace hbreak =>
      have hbreak : (c.moveTo ('\n' :: ch :: next)).startsWith isBreak = true :=
        rfl
      rw [hbreak, if_pos rfl]
      exact skipGap_solid true hsolid rfl fuel

section Lexers

variable {s : Lexer}

theorem flow_eq_false (houter : s.outerKeys = []) : s.flow = false := by
  simp [flow, houter]

theorem closed_of_le {column indent : Int} (h : indent ≤ column)
    (indents : List Int) :
    closed column indent indents = (0, indent, indents) := by
  cases indents with
  | nil => rw [closed, if_neg (by omega)]
  | cons outer outers => rw [closed, if_neg (by omega)]

theorem approach?_eq (houter : s.outerKeys = [])
    (hgap : skipGap false (s.cursor.rest.length + 1) s.keyAllowed s.cursor =
    (allowed, c)) (hkey : dropStale? c s.key = some s.key) (hindent :
    s.indent ≤ c.column) :
    s.approach? = some { s with keyAllowed := allowed, cursor := c } := by
  obtain ⟨cursor, indent, indents, keyAllowed, key, outerKeys, tokens, count⟩ :=
    s
  obtain rfl : outerKeys = [] := houter
  unfold approach?
  rw [flow_eq_false rfl, hgap]
  simp only [dropStaleKeys?, hkey, Option.bind_eq_bind, Option.bind_some,
    List.mapM_nil, Option.pure_def, unroll, flow_eq_false, closed_of_le hindent]
  rfl

theorem token?_plain (houter : s.outerKeys = []) {ch : Char} {rest : List Char}
    (hrest : s.cursor.rest = ch :: rest)
    (hstarts : startsPlain false (ch :: rest) = true)
    (hdash : ch = '-' → endsWord rest = false)
    (hmark : s.cursor.atDocumentMark = false) :
    s.token? = s.plainScalar? := by
  have hplain : s.token? = if startsPlain false (ch :: rest) then s.plainScalar?
      else none := by
    rcases startsPlain_cases hstarts with ⟨-, -, hne⟩ | rfl | ⟨rfl | rfl, hword⟩
    · simp only [reserved, List.forall_mem_cons] at hne
      simp [token?, flow_eq_false houter, hrest, hmark, hne]
    · simp [token?, flow_eq_false houter, hrest, hmark, hdash rfl]
    · simp [token?, flow_eq_false houter, hrest, hmark, hword]
    · simp [token?, flow_eq_false houter, hrest, hmark, hword]
  rw [hplain, if_pos hstarts]

theorem token?_colon {rest : List Char} (hrest : s.cursor.rest = ':' :: rest)
    (hword : endsWord rest = true) : s.token? = s.value? := by
  have hmark : s.cursor.atDocumentMark = false := by
    simp [Cursor.atDocumentMark, hrest]
  simp [token?, hmark, hrest, hword]

end Lexers

theorem run?_step {s near after : Lexer} (happroach : s.approach? = some near)
    (hrest : near.cursor.rest ≠ []) (htoken : near.token? = some after)
    (fuel : Nat) :
    run? (fuel + 1) s = run? fuel after := by
  have hmore : near.cursor.rest.isEmpty = false := by simpa using hrest
  rw [run?, happroach, Option.bind_eq_bind, Option.bind_some, hmore, htoken]
  rfl

theorem run?_none {s near : Lexer} (happroach : s.approach? = some near)
    (hrest : near.cursor.rest ≠ []) (htoken : near.token? = none) (fuel : Nat) :
    run? (fuel + 1) s = none := by
  have hmore : near.cursor.rest.isEmpty = false := by simpa using hrest
  rw [run?, happroach, Option.bind_eq_bind, Option.bind_some, hmore, htoken]
  rfl

end Lexer

end Workflows.Yaml
