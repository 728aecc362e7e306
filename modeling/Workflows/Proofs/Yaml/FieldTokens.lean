import Workflows.Proofs.Yaml.Steps
import Workflows.Text.Line

/-!
# Tokens of plain fields

A text whose lines are a key, a colon, a blank and a plain value is a mapping.
Each value is what a plain scalar takes of its line; a line where that ends
before a colon makes the whole text unreadable.
-/

namespace Workflows.Yaml

open Text

structure Field where
  key : List Char
  value : List Char
  deriving DecidableEq, Repr

namespace Field

def line (f : Field) : List Char := f.key ++ ':' :: ' ' :: f.value

structure IsPlain (f : Field) : Prop where
  key_ne : f.key ≠ []
  key_short : f.key.length ≤ 1024
  key_alpha : ∀ ch ∈ f.key, ch.isAlpha = true
  value_starts : Lexer.startsPlain false f.value = true
  value_not_dash : f.value ≠ ['-']
  value_line : ∀ ch ∈ f.value, isBreak ch = false

def entry? (f : Field) : Option (List Char × List Char) :=
  if (plainLine true f.value).2.head? = some ':' then none
  else some (f.key, (plainLine true f.value).1)

end Field

namespace Lexer

variable {c : Cursor}

/-! ## Lines -/

/-- At the start of a line of the outermost mapping; `opened` tells that it is
not the first. -/
def atLine (opened : Bool) (tokens : List Token) (count : Nat) (c : Cursor) :
    Lexer :=
  ⟨c, if opened then 0 else -1, if opened then [-1] else [], true, none, [],
    tokens, count⟩

def behindKey (opened : Bool) (key : List Char) (start : Cursor)
    (tokens : List Token) (count : Nat) (c : Cursor) : Lexer :=
  ⟨c, if opened then 0 else -1, if opened then [-1] else [], false,
    some ⟨start.index, start.line, 0, count, opened⟩, [],
    .scalar (String.ofList key) true :: tokens, count + 1⟩

def keyTokens (opened : Bool) (key : List Char) (tokens : List Token) :
    List Token :=
  .value :: .scalar (String.ofList key) true :: .key ::
    if opened then tokens else .blockMappingStart :: tokens

def behindLine (allowed : Bool) (tokens : List Token) (count : Nat)
    (c : Cursor) : Lexer :=
  ⟨c, 0, [-1], allowed, none, [], tokens, count⟩

section Line

variable {f : Field} {tail : List Char} {opened : Bool} {tokens : List Token}
  {count fuel : Nat}

theorem head?_line (hf : f.IsPlain) (tail : List Char) :
    ∃ ch rest, f.line ++ tail = ch :: rest ∧ ch.isAlpha = true := by
  obtain ⟨ch, more, hkey⟩ := List.exists_cons_of_ne_nil hf.key_ne
  refine ⟨ch, more ++ ':' :: ' ' :: f.value ++ tail, ?_,
    hf.key_alpha ch (by simp [hkey])⟩
  simp [Field.line, hkey]

theorem isSolid_of_isAlpha {ch : Char} (h : ch.isAlpha = true) : IsSolid ch :=
  ⟨isSpace_of_isAlpha h, isBreak_of_isAlpha h, ne_of_isAlpha h rfl⟩

theorem plainRun?_key {key : List Char} (hkey : ∀ ch ∈ key, ch.isAlpha = true)
    (rest : List Char) :
    plainRun? false (key ++ ':' :: ' ' :: rest) =
      some (key, ':' :: ' ' :: rest) := by
  induction key with
  | nil => rfl
  | cons ch key ih =>
      have hch := hkey ch List.mem_cons_self
      rw [List.cons_append, plainRun?_cons, ih fun d hd => hkey d (.tail ch hd),
        isSpace_of_isAlpha hch, isBreak_of_isAlpha hch,
        beq_false_of_ne (ne_of_isAlpha hch rfl)]
      rfl

theorem not_bound_of_isAlpha {ch : Char} {rest : List Char}
    (h : ch.isAlpha = true) (hrest : c.rest = ch :: rest) :
    c.atDocumentMark = false ∧ c.startsWith (· == '#') = false ∧
    c.startsWith isMark = false := by
  have hdash : ch ≠ '-' := ne_of_isAlpha h rfl
  have hpoint : ch ≠ '.' := ne_of_isAlpha h rfl
  refine ⟨?_, ?_, ?_⟩
  · rw [Cursor.atDocumentMark, hrest]
    split <;> simp_all
  · simp [Cursor.startsWith, hrest, ne_of_isAlpha h]
  · simp [Cursor.startsWith, hrest, isMark, ne_of_isAlpha h]

theorem plain?_key (hf : f.IsPlain) (htail : Ends tail)
    (hrest : c.rest = f.line ++ tail) {indent : Int} (hindent : indent ≤ 1)
    (hfuel : 1 < fuel) :
    plain? false indent fuel Gap.empty c =
      some ((f.key, false), c.moveTo (':' :: ' ' :: (f.value ++ tail))) := by
  obtain ⟨fuel, rfl⟩ := Nat.exists_eq_add_of_le' hfuel
  obtain ⟨ch, rest, hcons, hletter⟩ := head?_line hf tail
  have hkey : c.rest = f.key ++ ':' :: ' ' :: (f.value ++ tail) := by
    simp [hrest, Field.line]
  have hbound : (c.atDocumentMark || c.startsWith (· == '#')) = false := by
    obtain ⟨hmark, hcomment, -⟩ :=
      not_bound_of_isAlpha hletter (hrest.trans hcons)
    rw [hmark, hcomment]
    rfl
  have hrun : plainRun? false c.rest = some (f.key,
      [] ++ ':' :: ' ' :: (f.value ++ tail)) := by
    rw [hkey]
    exact plainRun?_key hf.key_alpha _
  have hgap :=
    Gap.read?_to_word indent (List.forall_mem_nil _)
      (show isSpace ':' = false from rfl)
    (show isBreak ':' = false from rfl) (hkey ▸ List.suffix_append f.key _)
  have hcolumn := Cursor.column_moveTo_pos hkey hf.key_ne
  have hfar : ¬ ((c.moveTo (':' :: ' ' :: (f.value ++ tail))).column : Int) <
      indent := by omega
  have hline : ∀ ch ∈ ':' :: ' ' :: f.value, isBreak ch = false :=
    List.forall_mem_cons.mpr ⟨rfl,
      List.forall_mem_cons.mpr ⟨rfl, hf.value_line⟩⟩
  have hstop : plain? false indent (fuel + 1) (Gap.ofBlanks [])
      (c.moveTo (':' :: ' ' :: (f.value ++ tail))) =
        some (([], false), c.moveTo (':' :: ' ' :: (f.value ++ tail))) :=
    plain?_stop hline htail rfl rfl
  rw [plain?_run hbound hrun hf.key_ne hgap, if_neg hfar, hstop]
  simp [Gap.folded, Gap.empty]

theorem token?_key (hf : f.IsPlain) (htail : Ends tail)
    (hrest : c.rest = f.line ++ tail) (hcolumn : c.column = 0) :
    (atLine opened tokens count c).token? =
      some (behindKey opened f.key c tokens count
        (c.moveTo (':' :: ' ' :: (f.value ++ tail)))) := by
  obtain ⟨ch, rest, hcons, hletter⟩ := head?_line hf tail
  obtain ⟨hmark, -⟩ := not_bound_of_isAlpha hletter (hrest.trans hcons)
  have hscalar {indent : Int} (hindent : indent ≤ 1) :
      plain? false indent (c.rest.length + 1) Gap.empty c =
        some ((f.key, false), c.moveTo (':' :: ' ' :: (f.value ++ tail))) :=
    plain?_key hf htail hrest hindent (by simp [hrest, hcons])
  rw [token?_plain rfl (hrest.trans hcons) (startsPlain_of_isAlpha hletter rest)
    (fun hdash => absurd hdash (ne_of_isAlpha hletter rfl)) hmark]
  cases opened with
  | true =>
      simp [plainScalar?, saveKey?, dropKey?, atLine, behindKey, flow, hcolumn,
        hscalar, scalar, push]
  | false =>
      simp [plainScalar?, saveKey?, dropKey?, atLine, behindKey, flow, hcolumn,
        hscalar, scalar, push]

theorem approach?_line (hf : f.IsPlain) (hrest : c.rest = f.line ++ tail)
    (hcolumn : c.column = 0) :
    (atLine opened tokens count c).approach? = some
      (atLine opened tokens count c) := by
  obtain ⟨ch, rest, hcons, hletter⟩ := head?_line hf tail
  obtain ⟨-, -, hmark⟩ := not_bound_of_isAlpha hletter (hrest.trans hcons)
  have hgap := skipGap_solid (c := c) true
    (by simp [hrest, hcons, isSolid_of_isAlpha hletter])
    (by rw [hmark, Bool.and_false]) c.rest.length
  refine (approach?_eq rfl hgap rfl ?_).trans rfl
  cases opened <;> simp [atLine, hcolumn]

theorem approach?_colon {key : List Char} {start : Cursor} {rest : List Char}
    (hrest : c.rest = ':' :: rest) (hline : c.line = start.line)
    (hindex : c.index ≤ start.index + 1024) :
    (behindKey opened key start tokens count c).approach? =
      some (behindKey opened key start tokens count c) := by
  have hsolid : ∀ ch ∈ c.rest.head?, IsSolid ch := by
    rw [hrest]
    rintro ch ⟨⟩
    exact ⟨rfl, rfl, by decide⟩
  have hmark : c.startsWith isMark = false := by
    simp [Cursor.startsWith, hrest, isMark]
  have hgap :=
    skipGap_solid false hsolid (by rw [hmark, Bool.and_false]) c.rest.length
  refine approach?_eq rfl hgap ?_ ?_
  · simp [behindKey, dropStale?, PendingKey.isStale, hline, hindex]
  · cases opened <;> simp [behindKey]

theorem token?_colon_key {key : List Char} {start : Cursor} {rest : List Char}
    (hrest : c.rest = ':' :: rest) (hword : endsWord rest = true) :
    ∃ count', (behindKey opened key start tokens count c).token? =
      some (behindLine false (keyTokens opened key tokens)
        count' (c.skip 1)) := by
  rw [token?_colon hrest hword]
  have hlater : count + 1 + 1 - count = 2 := by omega
  cases opened with
  | true =>
      exact ⟨count + 3, by
        simp [value?, insert, roll, flow, mark, push, behindKey, behindLine,
          keyTokens]⟩
  | false =>
      exact ⟨count + 4, by
        simp [value?, insert, roll, flow, mark, push, behindKey,
          behindLine, keyTokens, hlater]⟩

theorem approach?_value {value : List Char}
    (hrest : c.rest = ' ' :: (value ++ tail))
    (hstarts : startsPlain false value = true) :
    (behindLine false tokens count c).approach? =
      some (behindLine false tokens count (c.moveTo (value ++ tail))) := by
  cases value with
  | nil => cases hstarts
  | cons ch value =>
      have hsolid : ∀ d ∈ (ch :: value ++ tail).head?, IsSolid d := by
        rintro d ⟨⟩
        exact isSolid_of_startsPlain hstarts
      refine approach?_eq rfl (skipGap_blank hrest hsolid c.rest.length) rfl ?_
      simp [behindLine]

theorem token?_text (hf : f.IsPlain) (htail : Ends tail)
    (hrest : c.rest = f.value ++ tail) (hcolumn : 0 < c.column) :
    (behindLine false tokens count c).token? =
      some (behindLine ((plainLine true f.value).2.isEmpty && !tail.isEmpty)
        (.scalar (String.ofList (plainLine true f.value).1) true :: tokens)
        (count + 1) (c.pastPlain f.value tail)) := by
  obtain ⟨key, value⟩ := f
  obtain ⟨-, -, -, hstarts, hdash, hline⟩ := hf
  cases value with
  | nil => cases hstarts
  | cons ch rest =>
      dsimp only at hstarts hdash hline hrest ⊢
      have hmark := Cursor.atDocumentMark_of_column hcolumn
      have hsolid := isSolid_of_startsPlain hstarts
      have hplain : plain? false 1 (c.rest.length + 1) Gap.empty c = _ :=
        plain?_line hline htail (by simp [hsolid.not_space])
          (plainLine_ne_nil hstarts)
          (by simp only [hrest, List.length_append]; omega) hrest hmark
      have hscalar : (behindLine false tokens count c).token? =
          (behindLine false tokens count c).plainScalar? := by
        refine token?_plain rfl hrest ?_ ?_ hmark
        · exact (startsPlain_append htail ch rest).trans hstarts
        · rintro rfl
          rw [List.append_eq, htail.endsWord_append]
          exact endsWord_of_dash hstarts (by simpa using hdash)
            (List.forall_mem_cons.mp hline).2
      have hempty : Gap.empty.folded = [] := rfl
      rw [hscalar]
      simp [plainScalar?, saveKey?, behindLine, flow, hplain, hempty,
        scalar, push]

theorem run?_to_colon (hf : f.IsPlain) (htail : Ends tail)
    (hrest : c.rest = f.line ++ tail) (hcolumn : c.column = 0) (fuel : Nat) :
    run? (fuel + 1) (atLine opened tokens count c) =
      run? fuel (behindKey opened f.key c tokens count
        (c.moveTo (':' :: ' ' :: (f.value ++ tail)))) := by
  obtain ⟨ch, rest, hcons, -⟩ := head?_line hf tail
  have hline : c.rest ≠ [] := by simp [hrest, hcons]
  exact run?_step (approach?_line hf hrest hcolumn) hline
    (token?_key hf htail hrest hcolumn) fuel

theorem run?_to_blank {key rest : List Char} {start : Cursor}
    (hstart : start.rest = key ++ c.rest) (hkey : key.length ≤ 1024)
    (hmove : c = start.moveTo c.rest) (hrest : c.rest = ':' :: rest)
    (hword : endsWord rest = true) (fuel : Nat) :
    ∃ count', run? (fuel + 1) (behindKey opened key start tokens count c) =
      run? fuel (behindLine false (keyTokens opened key tokens)
        count' (start.moveTo rest)) := by
  have hline : c.line = start.line := by
    rw [hmove]
    rfl
  have hindex : c.index ≤ start.index + 1024 := by
    have hindex :
        c.index = start.index + (start.rest.length - c.rest.length) := by
      rw [hmove]
      rfl
    rw [hindex, hstart, List.length_append]
    omega
  have hafter : c.skip 1 = start.moveTo rest := by
    rw [Cursor.skip_one_eq_moveTo hrest, hmove]
    exact Cursor.moveTo_moveTo (hstart ▸ List.suffix_append key _)
      (hrest ▸ List.suffix_cons ':' rest)
  have hne : c.rest ≠ [] := by simp [hrest]
  obtain ⟨count', htoken⟩ :
      ∃ count', (behindKey opened key start tokens count c).token? =
      some (behindLine false (keyTokens opened key tokens) count' (c.skip 1)) :=
    token?_colon_key hrest hword
  refine ⟨count', ?_⟩
  rw [run?_step (approach?_colon hrest hline hindex) hne htoken, hafter]

theorem run?_line (hf : f.IsPlain) (htail : Ends tail)
    (hrest : c.rest = f.line ++ tail) (hcolumn : c.column = 0) (fuel : Nat) :
    ∃ count', run? (fuel + 3) (atLine opened tokens count c) =
      run? fuel
        (behindLine ((plainLine true f.value).2.isEmpty && !tail.isEmpty)
        (.scalar (String.ofList (plainLine true f.value).1) true ::
          keyTokens opened f.key tokens) count'
            (c.pastPlain f.value tail)) := by
  have hafter : c.rest = f.key ++ ':' :: ' ' :: (f.value ++ tail) := by
    simp [hrest, Field.line]
  have hpassed : c.rest = (f.key ++ [':', ' ']) ++ (f.value ++ tail) := by
    simp [hafter]
  have hvalue : f.value ++ tail <:+ c.rest := hpassed ▸ List.suffix_append _ _
  have hcolumn' := Cursor.column_moveTo_pos hpassed (by simp)
  obtain ⟨count', hblank⟩ :
      ∃ count', run? (fuel + 2) (behindKey opened f.key c tokens count
      (c.moveTo (':' :: ' ' :: (f.value ++ tail)))) =
        run? (fuel + 1) (behindLine false (keyTokens opened f.key tokens) count'
          (c.moveTo (' ' :: (f.value ++ tail)))) :=
    run?_to_blank hafter hf.key_short rfl rfl rfl (fuel + 1)
  have htext : (c.moveTo (' ' :: (f.value ++ tail))).moveTo (f.value ++ tail) =
      c.moveTo (f.value ++ tail) :=
    Cursor.moveTo_moveTo
      (hafter ▸ List.suffix_append_of_suffix (List.suffix_cons ':' _))
      (List.suffix_cons ' ' _)
  have happroach : (behindLine false (keyTokens opened f.key tokens) count'
      (c.moveTo (' ' :: (f.value ++ tail)))).approach? =
        some (behindLine false (keyTokens opened f.key tokens) count'
          (c.moveTo (f.value ++ tail))) :=
    htext ▸ approach?_value rfl hf.value_starts
  have hread : (behindLine false (keyTokens opened f.key tokens) count'
      (c.moveTo (f.value ++ tail))).token? = _ :=
    token?_text hf htail rfl hcolumn'
  rw [Cursor.pastPlain_moveTo hvalue] at hread
  have hne : f.value ++ tail ≠ [] :=
    List.append_ne_nil_of_left_ne_nil (ne_nil_of_startsPlain hf.value_starts)
      tail
  refine ⟨count' + 1, ?_⟩
  rw [run?_to_colon hf htail hrest hcolumn, hblank,
    run?_step happroach hne hread]

theorem run?_congr {s near : Lexer} (h : s.approach? = some near)
    (hnear : near.approach? = some near) (fuel : Nat) :
    run? fuel s = run? fuel near := by
  cases fuel with
  | zero => rfl
  | succ fuel => rw [run?, run?, h, hnear]

theorem approach?_behind (htail : Ends tail)
    (hnext : ∀ ch ∈ (tail.drop 1).head?, IsSolid ch) :
    (behindLine (!tail.isEmpty) tokens count
      (c.moveTo tail).skipLine).approach? =
      some (behindLine (!tail.isEmpty) tokens count
        (c.moveTo tail).skipLine) := by
  have hgap (fuel : Nat) :
      skipGap false (fuel + 1) (!tail.isEmpty) (c.moveTo tail).skipLine =
      (!tail.isEmpty, (c.moveTo tail).skipLine) := by
    cases htail with
    | text =>
        exact skipGap_solid false (by simp [Cursor.skipLine, Cursor.moveTo])
          (Bool.and_false _) fuel
    | line hspace hbreak => exact skipGap_solid true hnext rfl fuel
  refine approach?_eq rfl (hgap _) rfl ?_
  simp [behindLine]

theorem run?_behind (hf : f.IsPlain) (htail : Ends tail)
    (hnext : ∀ ch ∈ (tail.drop 1).head?, IsSolid ch)
    (hrest : f.value ++ tail <:+ c.rest)
    (hleft : (plainLine true f.value).2.head? ≠ some ':') (fuel : Nat) :
    run? fuel (behindLine ((plainLine true f.value).2.isEmpty && !tail.isEmpty)
        tokens count
        (c.pastPlain f.value tail)) =
      run? fuel (behindLine (!tail.isEmpty) tokens count
        (c.moveTo tail).skipLine) := by
  unfold Cursor.pastPlain
  rcases plainLine_left true f.value with
      hnone | ⟨comment, hcomment⟩ | ⟨rest, hcolon, -⟩
  · rw [hnone]
    rfl
  · have hsuffix := plainLine_suffix true f.value
    rw [hcomment] at hsuffix ⊢
    have hmid : '#' :: comment ++ tail <:+ c.rest := by
      refine List.IsSuffix.trans ?_ hrest
      obtain ⟨taken, htaken⟩ := hsuffix
      exact ⟨taken, by rw [← List.append_assoc, htaken]⟩
    have hline : ∀ ch ∈ comment, isBreak ch = false := fun ch hch =>
      hf.value_line ch (hsuffix.subset (List.mem_cons_of_mem '#' hch))
    refine run?_congr ?_ (approach?_behind htail hnext) fuel
    have hgap :=
      skipGap_comment (c := c.moveTo ('#' :: comment ++ tail))
        rfl hline htail hnext
      (comment ++ tail).length
    rw [Cursor.moveTo_moveTo hmid (List.suffix_append _ tail)] at hgap
    refine approach?_eq rfl hgap rfl ?_
    simp [behindLine]
  · rw [hcolon] at hleft
    exact absurd rfl hleft

theorem run?_end (hrest : c.rest = []) (allowed : Bool) (fuel : Nat) :
    run? (fuel + 1) (behindLine allowed tokens count c) =
      some (tokens.reverse ++ [.blockEnd]) := by
  have hmark : c.startsWith isMark = false := by simp [Cursor.startsWith, hrest]
  have hgap : skipGap false (c.rest.length + 1) allowed c = (allowed, c) :=
    skipGap_solid allowed (by simp [hrest]) (by rw [hmark, Bool.and_false])
      c.rest.length
  have happroach : (behindLine allowed tokens count c).approach? =
      some (behindLine allowed tokens count c) := by
    refine approach?_eq rfl hgap rfl ?_
    simp [behindLine]
  rw [run?, happroach]
  simp [behindLine, hrest, unroll, flow, closed, dropKey?]

theorem run?_colon (htail : Ends tail)
    (hleft : (plainLine true f.value).2.head? = some ':') (fuel : Nat) :
    run? fuel (behindLine ((plainLine true f.value).2.isEmpty && !tail.isEmpty)
      tokens count
      (c.pastPlain f.value tail)) = none := by
  rcases plainLine_left true f.value with
      hnone | ⟨comment, hcomment⟩ | ⟨rest, hcolon, hword⟩
  · rw [hnone] at hleft
    cases hleft
  · rw [hcomment] at hleft
    cases hleft
  · have hcursor :
        c.pastPlain f.value tail = c.moveTo (':' :: (rest ++ tail)) := by
      rw [Cursor.pastPlain, hcolon]
      rfl
    have hrest : (c.moveTo (':' :: (rest ++ tail))).rest =
        ':' :: (rest ++ tail) := rfl
    have hgap : skipGap false ((':' :: (rest ++ tail)).length + 1) false
        (c.moveTo (':' :: (rest ++ tail))) =
        (false, c.moveTo (':' :: (rest ++ tail))) := by
      refine skipGap_solid false ?_ (Bool.and_false _) _
      rintro ch ⟨⟩
      exact ⟨rfl, rfl, by decide⟩
    have happroach :
        (behindLine false tokens count
          (c.moveTo (':' :: (rest ++ tail)))).approach? =
        some (behindLine false tokens count
          (c.moveTo (':' :: (rest ++ tail)))) := by
      refine approach?_eq rfl hgap rfl ?_
      simp [behindLine]
    have htoken :
        (behindLine false tokens count
          (c.moveTo (':' :: (rest ++ tail)))).token? =
        none := by
      rw [token?_colon hrest ((htail.endsWord_append rest).trans hword)]
      rfl
    rw [hcursor, hcolon]
    cases fuel with
    | zero => rfl
    | succ fuel => exact run?_none happroach (List.cons_ne_nil _ _) htoken fuel

end Line

/-! ## Fields -/

section Fields

variable {f : Field} {fs : List Field} {c : Cursor}

def linesBehind : List Field → List Char
  | [] => []
  | f :: fs => '\n' :: joinLines ((f :: fs).map Field.line)

theorem joinLines_fields (f : Field) (fs : List Field) :
    joinLines ((f :: fs).map Field.line) = f.line ++ linesBehind fs := by
  cases fs with
  | nil => simp [joinLines, linesBehind, List.intercalate]
  | cons g fs =>
      rw [List.map_cons, joinLines_cons (by simp)]
      rfl

theorem ends_linesBehind (hfs : ∀ f ∈ fs, f.IsPlain) :
    Ends (linesBehind fs) ∧ ∀ ch ∈ ((linesBehind fs).drop 1).head?,
      IsSolid ch := by
  cases fs with
  | nil => exact ⟨.text, by simp [linesBehind]⟩
  | cons f fs =>
      obtain ⟨ch, rest, hcons, hletter⟩ :=
        head?_line (hfs f List.mem_cons_self) (linesBehind fs)
      have hsolid := isSolid_of_isAlpha hletter
      rw [linesBehind, joinLines_fields, hcons]
      refine ⟨.line hsolid.not_space hsolid.not_break, ?_⟩
      rintro d ⟨⟩
      exact hsolid

def entryTokens (entry : List Char × List Char) : List Token :=
  [.key, .scalar (String.ofList entry.1) true, .value,
    .scalar (String.ofList entry.2) true]

theorem run?_field (hf : f.IsPlain) (hfs : ∀ g ∈ fs, g.IsPlain) {opened : Bool}
    {tokens : List Token} {count : Nat}
    (hrest : c.rest = joinLines ((f :: fs).map Field.line))
    (hcolumn : c.column = 0) (fuel : Nat) :
    ∃ count', run? (fuel + 3) (atLine opened tokens count c) =
      f.entry?.bind fun entry =>
        run? fuel (behindLine (!(linesBehind fs).isEmpty)
        ((entryTokens entry).reverse ++ if opened then tokens
        else .blockMappingStart :: tokens) count'
        (c.moveTo (linesBehind fs)).skipLine) := by
  obtain ⟨htail, hnext⟩ := ends_linesBehind hfs
  rw [joinLines_fields] at hrest
  obtain ⟨count', hline⟩ :
      ∃ count', run? (fuel + 3) (atLine opened tokens count c) = _ :=
    run?_line hf htail hrest hcolumn fuel
  refine ⟨count', hline.trans ?_⟩
  by_cases hleft : (plainLine true f.value).2.head? = some ':'
  · rw [run?_colon htail hleft, Field.entry?, if_pos hleft]
    rfl
  · have hmid : f.value ++ linesBehind fs <:+ c.rest := by
      refine ⟨f.key ++ [':', ' '], ?_⟩
      simp [hrest, Field.line]
    rw [run?_behind hf htail hnext hmid hleft, Field.entry?, if_neg hleft]
    rfl

theorem run?_fields (hfs : ∀ g ∈ f :: fs, g.IsPlain) {opened : Bool}
    {tokens : List Token} {count : Nat}
    (hrest : c.rest = joinLines ((f :: fs).map Field.line))
    (hcolumn : c.column = 0) {fuel : Nat}
    (hfuel : 3 * (f :: fs).length < fuel) :
    run? fuel (atLine opened tokens count c) =
      ((f :: fs).mapM Field.entry?).map fun entries =>
        (if opened then tokens else .blockMappingStart :: tokens).reverse ++
          entries.flatMap entryTokens ++ [.blockEnd] := by
  induction fs generalizing f opened tokens count c fuel with
  | nil =>
      obtain ⟨fuel, rfl⟩ := Nat.exists_eq_add_of_le' (show 4 ≤ fuel from hfuel)
      obtain ⟨count', hfield⟩ :
          ∃ count', run? (fuel + 4) (atLine opened tokens count c) = _ :=
        run?_field (hfs f List.mem_cons_self) (List.forall_mem_nil _) hrest
          hcolumn (fuel + 1)
      rw [hfield, List.mapM_cons, List.mapM_nil]
      cases f.entry? with
      | none => rfl
      | some entry =>
          have hend : (c.moveTo (linesBehind [])).skipLine.rest = [] := rfl
          rw [Option.bind_some, run?_end hend]
          simp
  | cons g fs ih =>
      obtain ⟨fuel, rfl⟩ :=
        Nat.exists_eq_add_of_le' (show 3 ≤ fuel by simp at hfuel; omega)
      obtain ⟨count', hfield⟩ :
          ∃ count', run? (fuel + 3) (atLine opened tokens count c) = _ :=
        run?_field (hfs f List.mem_cons_self) (fun h hh => hfs h (.tail f hh))
          hrest hcolumn fuel
      rw [hfield, List.mapM_cons]
      cases f.entry? with
      | none => rfl
      | some entry =>
          have hnext : (c.moveTo (linesBehind (g :: fs))).skipLine.rest =
              joinLines ((g :: fs).map Field.line) := rfl
          have hshort : 3 * (g :: fs).length < fuel := by
            simp only [List.length_cons] at hfuel ⊢
            omega
          have hmore : run? fuel (atLine true ((entryTokens entry).reverse ++
              if opened then tokens else .blockMappingStart :: tokens) count'
                _) = _ :=
            ih (fun h hh => hfs h (.tail f hh)) hnext rfl hshort
          refine Eq.trans hmore ?_
          cases (g :: fs).mapM Field.entry? with
          | none => rfl
          | some entries => simp

theorem length_fields (hfs : ∀ g ∈ f :: fs, g.IsPlain) :
    3 * (f :: fs).length ≤ (joinLines ((f :: fs).map Field.line)).length := by
  have hkey := List.length_pos_iff.mpr (hfs f List.mem_cons_self).key_ne
  induction fs generalizing f with
  | nil =>
      rw [joinLines_fields]
      simp only [Field.line, List.length_append, List.length_cons,
        List.length_nil]
      omega
  | cons g fs ih =>
      have hmore := ih (fun h hh => hfs h (.tail f hh))
        (List.length_pos_iff.mpr (hfs g (by simp)).key_ne)
      rw [joinLines_fields, linesBehind]
      simp only [Field.line, List.length_append, List.length_cons] at hmore ⊢
      omega

end Fields

end Lexer

theorem tokens?_fields {f : Field} {fs : List Field}
    (hfs : ∀ g ∈ f :: fs, g.IsPlain)
    (hallowed : (joinLines ((f :: fs).map Field.line)).all isAllowed = true) :
    tokens? (joinLines ((f :: fs).map Field.line)) =
      ((f :: fs).mapM Field.entry?).map fun entries =>
        .blockMappingStart :: entries.flatMap Lexer.entryTokens ++
          [.blockEnd] := by
  have hlength :
      3 * (f :: fs).length < (joinLines ((f :: fs).map Field.line)).length +
        1 :=
    Nat.lt_succ_of_le (Lexer.length_fields hfs)
  rw [tokens?, if_pos hallowed]
  have hstart (text : List Char) :
      Lexer.start text = Lexer.atLine false [] 0 (Cursor.ofText text) := rfl
  rw [hstart, Lexer.run?_fields hfs rfl rfl hlength]
  rfl

end Workflows.Yaml
