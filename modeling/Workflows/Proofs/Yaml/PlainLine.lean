import Mathlib.Data.List.TakeWhile
import Workflows.Yaml.Plain

/-!
# Plain scalars on one line

Of a line a plain scalar takes everything up to a comment or to a colon that
ends a word, less the blanks before it.  Where it takes the whole line, it ends
at the start of the next one.
-/

namespace Workflows.Yaml

/-! ## Cursors on one line -/

namespace Cursor

variable {c : Cursor}

theorem moveTo_self (c : Cursor) : c.moveTo c.rest = c := by
  simp [moveTo]

theorem moveTo_moveTo {mid last : List Char} (hmid : mid <:+ c.rest)
    (hlast : last <:+ mid) :
    (c.moveTo mid).moveTo last = c.moveTo last := by
  have hmid := hmid.length_le
  have hlast := hlast.length_le
  simp only [moveTo, mk.injEq, true_and]
  omega

theorem atDocumentMark_of_column (h : 0 < c.column) :
    c.atDocumentMark = false := by
  have hne : (c.column == 0) = false := by simpa using Nat.ne_of_gt h
  rw [atDocumentMark, hne, Bool.false_and]

theorem column_moveTo_pos {passed rest : List Char}
    (h : c.rest = passed ++ rest) (hne : passed ≠ []) :
    0 < (c.moveTo rest).column := by
  have hlength := List.length_pos_iff.mpr hne
  simp only [moveTo, h, List.length_append]
  omega

theorem skip_one_eq_moveTo {ch : Char} {rest : List Char}
    (h : c.rest = ch :: rest) :
    c.skip 1 = c.moveTo rest := by
  simp [skip, moveTo, h]

end Cursor

/-- Behind a line there is nothing, or a line feed and a line that starts with
neither blank nor break. -/
inductive Ends : List Char → Prop
  | text : Ends []
  | line {ch : Char} {next : List Char} (hspace : isSpace ch = false)
      (hbreak : isBreak ch = false) : Ends ('\n' :: ch :: next)

theorem Ends.endsWord_append {tail : List Char} (h : Ends tail)
    (rest : List Char) :
    endsWord (rest ++ tail) = endsWord rest := by
  cases rest with
  | nil => cases h <;> rfl
  | cons c rest => rfl

/-! ## Gaps -/

namespace Gap

def ofBlanks (blanks : List Char) : Gap := ⟨false, blanks, [], []⟩

variable {c : Cursor} (limit : Int)

theorem read?_blanks {blanks rest : List Char}
    (hblanks : ∀ ch ∈ blanks, isSpace ch = true) (fuel : Nat)
    (before : List Char) (hrest : c.rest = blanks ++ rest) :
    read? (blanks.length + fuel) limit (ofBlanks before) c =
      read? fuel limit (ofBlanks (before ++ blanks)) (c.moveTo rest) := by
  induction blanks generalizing before c with
  | nil =>
      obtain rfl : c.rest = rest := hrest
      simp [Cursor.moveTo_self]
  | cons ch blanks ih =>
      have hch := hblanks ch List.mem_cons_self
      have hmore := fun d hd => hblanks d (List.mem_cons_of_mem ch hd)
      rw [List.cons_append] at hrest
      have hmid : blanks ++ rest <:+ c.rest :=
        hrest ▸ List.suffix_cons ch (blanks ++ rest)
      rw [List.length_cons, Nat.add_right_comm, read?, hrest]
      simp only [hch, ofBlanks, if_true, Bool.false_eq_true, if_false]
      rw [Cursor.skip_one_eq_moveTo hrest]
      refine (ih hmore (before ++ [ch]) rfl).trans ?_
      rw [Cursor.moveTo_moveTo hmid (List.suffix_append blanks rest),
        List.append_assoc]
      rfl

theorem read?_word {fuel : Nat} {blanks : List Char} {ch : Char}
    {rest : List Char} (hrest : c.rest = ch :: rest)
    (hspace : isSpace ch = false) (hbreak : isBreak ch = false) :
    read? (fuel + 1) limit (ofBlanks blanks) c = some (ofBlanks blanks, c) := by
  rw [read?, hrest]
  simp [hspace, hbreak]

theorem read?_end {fuel : Nat} (blanks : List Char) {tail : List Char}
    (h : Ends tail) (hfuel : tail.length < fuel) (hrest : c.rest = tail) :
    ∃ gap, gap.broken = !tail.isEmpty ∧
      read? fuel limit (ofBlanks blanks) c = some (gap, c.skipLine) := by
  cases h with
  | text =>
      obtain ⟨fuel, rfl⟩ := Nat.exists_eq_add_of_le' (show 1 ≤ fuel from hfuel)
      refine ⟨ofBlanks blanks, rfl, ?_⟩
      rw [read?, hrest]
      simp [Cursor.skipLine, hrest]
  | @line ch next hspace hbreak =>
      obtain ⟨fuel, rfl⟩ : ∃ more, fuel = more + 2 :=
        Nat.exists_eq_add_of_le'
          (by simp only [List.length_cons] at hfuel; omega)
      refine ⟨⟨true, [], ['\n'], []⟩, rfl, ?_⟩
      have hnext : c.skipLine = ⟨ch :: next, c.index + 1, c.line + 1, 0⟩ := by
        simp [Cursor.skipLine, hrest, isBreak]
      have hword : read? (fuel + 1) limit ⟨true, [], ['\n'], []⟩ c.skipLine =
          some (⟨true, [], ['\n'], []⟩, c.skipLine) := by
        rw [read?, hnext]
        simp [hspace, hbreak]
      rw [← hword, read?, hrest]
      simp [ofBlanks, Cursor.breakText, hrest, isSpace, isBreak]

theorem read?_to_word {blanks rest : List Char} {ch : Char}
    (hblanks : ∀ c ∈ blanks, isSpace c = true) (hspace : isSpace ch = false)
    (hbreak : isBreak ch = false) (hmid : blanks ++ ch :: rest <:+ c.rest) :
    read? ((blanks ++ ch :: rest).length + 1) limit empty
      (c.moveTo (blanks ++ ch :: rest)) =
      some (ofBlanks blanks, c.moveTo (ch :: rest)) := by
  rw [List.length_append, Nat.add_assoc]
  refine (read?_blanks limit hblanks _ [] rfl).trans ?_
  rw [Cursor.moveTo_moveTo hmid (List.suffix_append blanks _)]
  exact read?_word limit rfl hspace hbreak

theorem read?_to_end {blanks tail : List Char}
    (hblanks : ∀ c ∈ blanks, isSpace c = true) (htail : Ends tail)
    (hmid : blanks ++ tail <:+ c.rest) :
    ∃ gap, gap.broken = !tail.isEmpty ∧
      read? ((blanks ++ tail).length + 1) limit empty
        (c.moveTo (blanks ++ tail)) =
        some (gap, (c.moveTo tail).skipLine) := by
  obtain ⟨gap, hbroken, hread⟩ :=
    read?_end limit blanks htail (Nat.lt_succ_self _)
      (show (c.moveTo tail).rest = tail from rfl)
  refine ⟨gap, hbroken, ?_⟩
  rw [List.length_append, Nat.add_assoc]
  refine (read?_blanks limit hblanks _ [] rfl).trans ?_
  rw [Cursor.moveTo_moveTo hmid (List.suffix_append blanks tail)]
  exact hread

end Gap

/-! ## Words -/

variable {run rest line tail : List Char}

/-- What a plain scalar takes of a line, and what it leaves; `spaced` tells that
a blank stands before. -/
def plainLine (spaced : Bool) : List Char → List Char × List Char
  | [] => ([], [])
  | c :: rest =>
      if isSpace c then
        match plainLine true rest with
        | ([], left) => ([], left)
        | (text, left) => (c :: text, left)
      else if (spaced && c == '#') || (c == ':' && endsWord rest) then
        ([], c :: rest)
      else ((c :: (plainLine false rest).1), (plainLine false rest).2)

theorem plainRun?_cons (c : Char) (rest : List Char) :
    plainRun? false (c :: rest) =
      if isSpace c || isBreak c || (c == ':' && endsWord rest) then
        some ([], c :: rest)
      else (plainRun? false rest).map fun found => (c :: found.1, found.2) := by
  rw [plainRun?.eq_def]
  by_cases hblank : (isSpace c || isBreak c) = true
  · simp [hblank]
  · cases hcolon : c == ':' && endsWord rest with
    | true => simp [hblank, hcolon]
    | false =>
        simp only [hblank, hcolon, Bool.false_and, Bool.or_false,
          Bool.false_eq_true, if_false]
        cases plainRun? false rest <;> rfl

theorem plainRun?_append (htail : Ends tail)
    (h : plainRun? false line = some (run, rest)) :
    plainRun? false (line ++ tail) = some (run, rest ++ tail) := by
  induction line generalizing run with
  | nil =>
      cases h
      cases htail with
      | text => rfl
      | line => rfl
  | cons c line ih =>
      rw [plainRun?_cons] at h
      rw [List.cons_append, plainRun?_cons, htail.endsWord_append]
      split at h
      · cases h
        rw [if_pos ‹_›]
        rfl
      · obtain ⟨⟨more, left⟩, hmore, heq⟩ := Option.map_eq_some_iff.mp h
        cases heq
        rw [if_neg ‹_›, ih hmore]
        rfl

theorem exists_plainRun? (line : List Char) :
    ∃ run rest, plainRun? false line = some (run, rest) := by
  induction line with
  | nil => exact ⟨[], [], rfl⟩
  | cons c line ih =>
      obtain ⟨run, rest, h⟩ := ih
      rw [plainRun?_cons, h]
      split
      · exact ⟨_, _, rfl⟩
      · exact ⟨_, _, rfl⟩

theorem append_of_plainRun? (h : plainRun? false line = some (run, rest)) :
    line = run ++ rest := by
  induction line generalizing run with
  | nil =>
      cases h
      rfl
  | cons c line ih =>
      rw [plainRun?_cons] at h
      split at h
      · cases h
        rfl
      · obtain ⟨⟨more, left⟩, hmore, heq⟩ := Option.map_eq_some_iff.mp h
        cases heq
        rw [List.cons_append, ← ih hmore]

theorem ends_of_plainRun? (hline : ∀ c ∈ line, isBreak c = false)
    (h : plainRun? false line = some (run, rest)) :
    rest = [] ∨ ∃ c left, rest = c :: left ∧
      (isSpace c = true ∨ c = ':' ∧ endsWord left = true) := by
  induction line generalizing run with
  | nil =>
      cases h
      exact .inl rfl
  | cons c line ih =>
      rw [plainRun?_cons] at h
      split at h
      · next hstop =>
          cases h
          refine .inr ⟨c, line, rfl, ?_⟩
          simpa [hline c List.mem_cons_self] using hstop
      · obtain ⟨⟨more, left⟩, hmore, heq⟩ := Option.map_eq_some_iff.mp h
        cases heq
        exact ih (fun d hd => hline d (List.mem_cons_of_mem c hd)) hmore

theorem plainLine_of_plainRun? (hline : ∀ c ∈ line, isBreak c = false)
    (h : plainRun? false line = some (run, rest)) :
    plainLine false line = (run ++ (plainLine false rest).1,
      (plainLine false rest).2) := by
  induction line generalizing run with
  | nil =>
      cases h
      rfl
  | cons c line ih =>
      rw [plainRun?_cons] at h
      split at h
      · cases h
        rfl
      · next hstop =>
          obtain ⟨⟨more, left⟩, hmore, heq⟩ := Option.map_eq_some_iff.mp h
          cases heq
          obtain ⟨⟨hspace, -⟩, hcolon⟩ :
              (isSpace c = false ∧ isBreak c = false) ∧
              (c == ':' && endsWord line) = false := by simpa using hstop
          rw [plainLine, hspace, hcolon,
            ih (fun d hd => hline d (List.mem_cons_of_mem c hd)) hmore]
          rfl

/-! ## Word characters -/

section WordChar

variable {c : Char} (h : isWordChar c = true)

include h

theorem ne_of_isWordChar {d : Char} (hd : isWordChar d = false) : c ≠ d := by
  rintro rfl
  exact Bool.false_ne_true (hd.symm.trans h)

theorem isSpace_of_isWordChar : isSpace c = false := by
  rw [isSpace, beq_false_of_ne (ne_of_isWordChar h rfl),
    beq_false_of_ne (ne_of_isWordChar h rfl)]
  rfl

theorem isBreak_of_isWordChar : isBreak c = false := by
  rw [Bool.eq_false_iff]
  intro hbreak
  simp only [isBreak, Bool.or_eq_true, beq_iff_eq] at hbreak
  rcases hbreak with (((rfl | rfl) | rfl) | rfl) | rfl <;> cases h

theorem toNat_of_isWordChar : 45 ≤ c.toNat ∧ c.toNat ≤ 122 := by
  simp only [isWordChar, Bool.or_eq_true, Bool.and_eq_true, decide_eq_true_eq,
    beq_iff_eq, Char.le_def, UInt32.le_iff_toNat_le] at h
  rcases h with (((h | h) | h) | rfl) | rfl
  · exact ⟨Nat.le_trans (by decide) h.1, Nat.le_trans h.2 (by decide)⟩
  · exact ⟨Nat.le_trans (by decide) h.1, Nat.le_trans h.2 (by decide)⟩
  · exact ⟨Nat.le_trans (by decide) h.1, Nat.le_trans h.2 (by decide)⟩
  · decide
  · decide

theorem isAllowed_of_isWordChar : isAllowed c = true := by
  have hrange := toNat_of_isWordChar h
  have hprinted : 32 ≤ c.toNat ∧ c.toNat ≤ 126 := by omega
  simp [isAllowed, hprinted]

end WordChar

theorem plainLine_of_isWordChar {line : List Char}
    (h : ∀ c ∈ line, isWordChar c = true) (spaced : Bool) :
    plainLine spaced line = (line, []) := by
  induction line generalizing spaced with
  | nil => rfl
  | cons c line ih =>
      obtain ⟨hc, hline⟩ := List.forall_mem_cons.mp h
      have hcomment : (c == '#') = false :=
        beq_false_of_ne (ne_of_isWordChar hc rfl)
      have hcolon : (c == ':') = false :=
        beq_false_of_ne (ne_of_isWordChar hc rfl)
      simp [plainLine, isSpace_of_isWordChar hc, hcomment, hcolon, ih hline]

/-! ## Lines -/

theorem plainLine_space {c : Char} (hc : isSpace c = true) (spaced : Bool)
    (rest : List Char) :
    plainLine spaced (c :: rest) = plainLine true (c :: rest) := by
  rw [plainLine, plainLine, if_pos hc, if_pos hc]

theorem plainLine_colon {rest : List Char} (h : endsWord rest = true)
    (spaced : Bool) :
    plainLine spaced (':' :: rest) = ([], ':' :: rest) := by
  simp [plainLine, h, isSpace]

theorem plainLine_blanks {blanks : List Char}
    (hblanks : ∀ c ∈ blanks, isSpace c = true) (line : List Char) :
    plainLine true (blanks ++ line) =
      (if (plainLine true line).1.isEmpty then []
        else blanks ++ (plainLine true line).1,
        (plainLine true line).2) := by
  induction blanks with
  | nil =>
      cases hline : plainLine true line with
      | mk text left => cases text <;> simp [hline]
  | cons b blanks ih =>
      have hb := hblanks b List.mem_cons_self
      rw [List.cons_append, plainLine, if_pos hb,
        ih fun c hc => hblanks c (.tail b hc)]
      cases hline : plainLine true line with
      | mk text left => cases text <;> cases blanks <;> simp

theorem plainLine_of_run (hline : ∀ c ∈ line, isBreak c = false)
    (hcomment : line.head? ≠ some '#')
    (h : plainRun? false line = some (run, rest)) :
    plainLine true line = (run ++ (plainLine true rest).1,
      (plainLine true rest).2) := by
  have hspaced : plainLine true line = plainLine false line := by
    cases line with
    | nil => rfl
    | cons c line =>
        have hc : (c == '#') = false := by simpa using hcomment
        rw [plainLine, plainLine, hc, Bool.and_false, Bool.and_false]
  have hrest : plainLine true rest = plainLine false rest := by
    rcases ends_of_plainRun? hline h with
        rfl | ⟨c, left, rfl, hc | ⟨rfl, hword⟩⟩
    · rfl
    · exact (plainLine_space hc false left).symm
    · rw [plainLine_colon hword, plainLine_colon hword]
  rw [hspaced, hrest]
  exact plainLine_of_plainRun? hline h

theorem exists_first_word (hline : ∀ c ∈ line, isBreak c = false)
    (hstart : ∀ c ∈ line.head?, isSpace c = false)
    (htext : (plainLine true line).1 ≠ []) :
    ∃ run blanks more : List Char, line = run ++ (blanks ++ more) ∧ run ≠ [] ∧
      (∀ c ∈ blanks, isSpace c = true) ∧ (∀ c ∈ more.head?, isSpace c = false) ∧
      plainRun? false line = some (run, blanks ++ more) ∧
      plainLine true line =
        (run ++ if (plainLine true more).1.isEmpty then []
          else blanks ++ (plainLine true more).1,
          (plainLine true more).2) := by
  have hcomment : line.head? ≠ some '#' := by
    intro hhead
    obtain ⟨more, rfl⟩ := List.head?_eq_some_iff.mp hhead
    exact htext (by simp [plainLine, isSpace])
  obtain ⟨run, rest, hrun⟩ := exists_plainRun? line
  have htaken := plainLine_of_run hline hcomment hrun
  have hends := ends_of_plainRun? hline hrun
  have hparts : rest.takeWhile isSpace ++ rest.dropWhile isSpace = rest :=
    List.takeWhile_append_dropWhile
  have hblanks : ∀ c ∈ rest.takeWhile isSpace, isSpace c = true :=
    fun c hc => List.mem_takeWhile_imp hc
  have hword : ∀ c ∈ (rest.dropWhile isSpace).head?, isSpace c = false := by
    intro c hc
    have hnot := List.head?_dropWhile_not isSpace rest
    rw [Option.mem_def.mp hc] at hnot
    simpa using hnot
  refine ⟨run, _, _, ?_, ?_, hblanks, hword, ?_, ?_⟩
  · rw [hparts]
    exact append_of_plainRun? hrun
  · rintro rfl
    obtain rfl := append_of_plainRun? hrun
    rcases hends with rfl | ⟨c, left, rfl, hspace | ⟨rfl, hcolon⟩⟩
    · exact htext rfl
    · exact Bool.false_ne_true ((hstart c rfl).symm.trans hspace)
    · exact htext (congrArg Prod.fst (plainLine_colon hcolon true))
  · rw [hparts, hrun]
  · have hmore := plainLine_blanks hblanks (rest.dropWhile isSpace)
    rw [hparts] at hmore
    rw [htaken, hmore]

theorem plainLine_stop {c : Char} (hc : isSpace c = false) {spaced : Bool}
    (h : (plainLine spaced (c :: rest)).1 = []) :
    (plainLine spaced (c :: rest)).2 = c :: rest := by
  rw [plainLine, if_neg (by simp [hc])] at h ⊢
  split
  · rfl
  · next hgoes =>
      rw [if_neg hgoes] at h
      cases h

theorem plainLine_suffix (spaced : Bool) (line : List Char) :
    (plainLine spaced line).2 <:+ line := by
  induction line generalizing spaced with
  | nil => exact List.suffix_rfl
  | cons c line ih =>
      unfold plainLine
      split
      · have hleft := (ih true).trans (List.suffix_cons c line)
        split
        · next hline => simpa [hline] using hleft
        · next hline => simpa [hline] using hleft
      · split
        · exact List.suffix_rfl
        · exact (ih false).trans (List.suffix_cons c line)

/-- A plain scalar leaves nothing of a line, a comment, or what starts with a
colon that ends a word. -/
theorem plainLine_left (spaced : Bool) (line : List Char) :
    (plainLine spaced line).2 = [] ∨
    (∃ comment, (plainLine spaced line).2 = '#' :: comment) ∨
      ∃ rest, (plainLine spaced line).2 = ':' :: rest ∧
      endsWord rest = true := by
  induction line generalizing spaced with
  | nil => exact .inl rfl
  | cons c line ih =>
      unfold plainLine
      split
      · have hleft := ih true
        split
        · next hline => simpa [hline] using hleft
        · next hline => simpa [hline] using hleft
      · split
        · next hstop =>
            simp only [Bool.or_eq_true, Bool.and_eq_true, beq_iff_eq] at hstop
            rcases hstop with ⟨-, rfl⟩ | ⟨rfl, hword⟩
            · exact .inr (.inl ⟨line, rfl⟩)
            · exact .inr (.inr ⟨line, rfl, hword⟩)
        · exact ih false

theorem plainLine_suffix_append (spaced : Bool) (line tail : List Char) :
    (plainLine spaced line).2 ++ tail <:+ line ++ tail := by
  obtain ⟨taken, htaken⟩ := plainLine_suffix spaced line
  exact ⟨taken, by rw [← List.append_assoc, htaken]⟩

def Cursor.pastPlain (c : Cursor) (line tail : List Char) : Cursor :=
  if (plainLine true line).2.isEmpty then (c.moveTo tail).skipLine
  else c.moveTo ((plainLine true line).2 ++ tail)

theorem Cursor.pastPlain_moveTo {c : Cursor} (h : line ++ tail <:+ c.rest) :
    (c.moveTo (line ++ tail)).pastPlain line tail = c.pastPlain line tail := by
  unfold pastPlain
  rw [moveTo_moveTo h (List.suffix_append line tail),
    moveTo_moveTo h (plainLine_suffix_append true line tail)]

section Lines

variable {c : Cursor} {gap : Gap} {fuel : Nat} {indent : Int}

theorem plain?_stop (hline : ∀ ch ∈ line, isBreak ch = false)
    (htail : Ends tail) (htext : (plainLine true line).1 = [])
    (hrest : c.rest = line ++ tail) :
    plain? false indent (fuel + 1) gap c = some (([], gap.broken), c) := by
  obtain ⟨run, rest, hrun⟩ := exists_plainRun? line
  rw [plain?]
  split
  · rfl
  · next hbound =>
      have hcomment : line.head? ≠ some '#' := by
        intro hhead
        obtain ⟨more, rfl⟩ := List.head?_eq_some_iff.mp hhead
        simp [Cursor.startsWith, hrest] at hbound
      rw [plainLine_of_run hline hcomment hrun, List.append_eq_nil_iff] at htext
      obtain ⟨rfl, -⟩ := htext
      rw [hrest, plainRun?_append htail hrun]
      rfl

theorem plain?_run
    (hbound : (c.atDocumentMark || c.startsWith (· == '#')) = false)
    (hrun : plainRun? false c.rest = some (run, rest)) (hne : run ≠ [])
    {gap' : Gap} {c' : Cursor}
    (hgap : Gap.read? (rest.length + 1) indent Gap.empty (c.moveTo rest) =
      some (gap', c')) :
    plain? false indent (fuel + 1) gap c =
      if (c'.column : Int) < indent then
        some ((gap.folded ++ run, gap'.broken), c')
      else (plain? false indent fuel gap' c').map fun found =>
        ((gap.folded ++ run ++ found.1.1, found.1.2), found.2) := by
  rw [plain?, hbound, hrun]
  have hrun : run.isEmpty = false := by simpa using hne
  simp only [Bool.false_eq_true, if_false, Option.bind_eq_bind,
    Option.bind_some, hrun, hgap, Bool.not_false, Bool.true_and,
    decide_eq_true_eq]
  split
  · rfl
  · cases plain? false indent fuel gap' c' <;> rfl

theorem startsWith_comment (hrest : c.rest = line ++ tail) (htail : Ends tail)
    (hcomment : line.head? ≠ some '#') : c.startsWith (· == '#') = false := by
  unfold Cursor.startsWith
  rw [hrest]
  cases line with
  | nil => cases htail <;> rfl
  | cons ch line => simpa using hcomment

section Words

variable {blanks : List Char}
  (hbound : (c.atDocumentMark || c.startsWith (· == '#')) = false)
  (hblanks : ∀ ch ∈ blanks, isSpace ch = true) (hne : run ≠ [])

include hbound hblanks hne

theorem plain?_last_word (htail : Ends tail) (hfuel : 0 < fuel)
    (hrest : c.rest = run ++ (blanks ++ tail))
    (hrun : plainRun? false c.rest = some (run, blanks ++ tail)) :
    plain? false 1 (fuel + 1) gap c =
      some ((gap.folded ++ run, !tail.isEmpty), (c.moveTo tail).skipLine) := by
  have hmid : blanks ++ tail <:+ c.rest := hrest ▸ List.suffix_append run _
  obtain ⟨gap', hbroken, hgap⟩ := Gap.read?_to_end 1 hblanks htail hmid
  rw [plain?_run hbound hrun hne hgap]
  cases htail with
  | text =>
      obtain ⟨fuel, rfl⟩ := Nat.exists_eq_add_of_le' hfuel
      have hlast : (c.moveTo []).skipLine = c.moveTo [] := rfl
      have hcolumn : 0 < (c.moveTo []).column :=
        Cursor.column_moveTo_pos (by simpa using hrest)
        (List.append_ne_nil_of_left_ne_nil hne blanks)
      have hfar : ¬ ((c.moveTo []).column : Int) < 1 := by omega
      have hstop : plain? false 1 (fuel + 1) gap' (c.moveTo []) =
          some (([], gap'.broken), c.moveTo []) :=
        plain?_stop (List.forall_mem_nil _) .text rfl rfl
      rw [hlast, if_neg hfar, hstop, hbroken]
      simp
  | @line ch next hspace hbreak =>
      have hnear :
          ((c.moveTo ('\n' :: ch :: next)).skipLine.column : Int) < 1 := by
        simp [Cursor.skipLine, Cursor.moveTo, isBreak]
      rw [if_pos hnear, hbroken]

theorem plain?_next_word {ch : Char} {more : List Char}
    (hspace : isSpace ch = false) (hbreak : isBreak ch = false)
    (hrest : c.rest = run ++ (blanks ++ ch :: more))
    (hrun : plainRun? false c.rest = some (run, blanks ++ ch :: more)) :
    plain? false 1 (fuel + 1) gap c =
      (plain? false 1 fuel (Gap.ofBlanks blanks) (c.moveTo (ch :: more))).map
        fun found =>
        ((gap.folded ++ run ++ found.1.1, found.1.2), found.2) := by
  have hmid : blanks ++ ch :: more <:+ c.rest :=
    hrest ▸ List.suffix_append run _
  rw [← List.append_assoc] at hrest
  have hcolumn :=
    Cursor.column_moveTo_pos hrest
      (List.append_ne_nil_of_left_ne_nil hne blanks)
  have hfar : ¬ ((c.moveTo (ch :: more)).column : Int) < 1 := by omega
  rw [plain?_run hbound hrun hne (Gap.read?_to_word 1 hblanks hspace hbreak
    hmid), if_neg hfar]

end Words

theorem plain?_line (hline : ∀ ch ∈ line, isBreak ch = false)
    (htail : Ends tail) (hstart : ∀ ch ∈ line.head?, isSpace ch = false)
    (htext : (plainLine true line).1 ≠ []) (hfuel : line.length < fuel)
    (hrest : c.rest = line ++ tail) (hmark : c.atDocumentMark = false) :
    plain? false 1 fuel gap c =
      some ((gap.folded ++ (plainLine true line).1,
        (plainLine true line).2.isEmpty && !tail.isEmpty),
        c.pastPlain line tail) := by
  induction fuel generalizing line gap c with
  | zero => omega
  | succ fuel ih =>
      unfold Cursor.pastPlain at ih ⊢
      have hcomment : line.head? ≠ some '#' := by
        intro hhead
        obtain ⟨more, rfl⟩ := List.head?_eq_some_iff.mp hhead
        exact htext (by simp [plainLine, isSpace])
      have hbound : (c.atDocumentMark || c.startsWith (· == '#')) = false := by
        rw [hmark, startsWith_comment hrest htail hcomment]
        rfl
      obtain ⟨run, blanks, more, rfl, hne, hblanks, hword, hrun, htaken⟩ :=
        exists_first_word hline hstart htext
      have hread := plainRun?_append htail hrun
      rw [← hrest, List.append_assoc] at hread
      rw [List.append_assoc, List.append_assoc] at hrest
      have hlength := List.length_pos_iff.mpr hne
      simp only [List.length_append] at hfuel
      rw [htaken]
      cases more with
      | nil =>
          rw [plain?_last_word hbound hblanks hne htail (by omega) hrest hread]
          simp [plainLine]
      | cons ch more =>
          have hspace := hword ch rfl
          have hmore : ∀ d ∈ ch :: more, isBreak d = false := fun d hd =>
            hline d (List.mem_append_right _ (List.mem_append_right _ hd))
          rw [plain?_next_word hbound hblanks hne hspace
            (hmore ch List.mem_cons_self) hrest hread]
          have hrest' : (c.moveTo (ch :: more ++ tail)).rest = ch :: more ++
              tail := rfl
          by_cases hstops : (plainLine true (ch :: more)).1 = []
          · obtain ⟨fuel, rfl⟩ :=
              Nat.exists_eq_add_of_le' (show 1 ≤ fuel by omega)
            have hstop : plain? false 1 (fuel + 1) (Gap.ofBlanks blanks)
                (c.moveTo (ch :: more ++ tail)) =
                  some (([], false), c.moveTo (ch :: more ++ tail)) :=
              plain?_stop hmore htail hstops hrest'
            rw [List.cons_append] at hstop
            rw [List.append_eq, hstop, hstops, plainLine_stop hspace hstops]
            simp
          · have hmid : ch :: more ++ tail <:+ c.rest := by
              rw [hrest, ← List.append_assoc]
              exact List.suffix_append _ _
            have hcolumn : 0 < (c.moveTo (ch :: more ++ tail)).column :=
              Cursor.column_moveTo_pos (by simpa using hrest)
                (List.append_ne_nil_of_left_ne_nil hne blanks)
            have hgoes := @ih _ _ (Gap.ofBlanks blanks) hmore hword hstops
              (by simp only [List.length_cons] at hfuel ⊢; omega) hrest'
              (Cursor.atDocumentMark_of_column hcolumn)
            rw [Cursor.moveTo_moveTo hmid (List.suffix_append _ tail),
              Cursor.moveTo_moveTo hmid
              (plainLine_suffix_append true (ch :: more) tail)] at hgoes
            rw [List.append_eq, ← List.cons_append, hgoes]
            simp [hstops, Gap.ofBlanks, Gap.folded]

end Lines

end Workflows.Yaml
