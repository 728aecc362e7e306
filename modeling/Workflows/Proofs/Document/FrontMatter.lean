import Mathlib.Data.List.TakeWhile
import Workflows.Document.Format

/-!
# Front matter and refused documents

A text with front matter is an opener, lines that close nothing, a closer and
the body.  Where the format of a document is not given it is refused for its
front matter alone, which is never closed, cannot be read or holds something
other than a mapping.
-/

namespace Workflows.Document

open Text

/-! ## The parts of a text -/

/-- Front matter between its two delimiters, and the lines behind them. -/
inductive HasFront (text : List Char) (front body : List (List Char)) : Prop
  | intro {opener closer : List Char}
      (hlines : contentLines text = opener :: (front ++ closer :: body))
      (hopener : isOpener opener = true) (hcloser : isCloser closer = true)
      (hfront : ∀ line ∈ front, isCloser line = false)

inductive NeverClosed (text : List Char) : Prop
  | intro {opener : List Char} {inner : List (List Char)}
      (hlines : contentLines text = opener :: inner)
      (hopener : isOpener opener = true) (hinner : ∀ line ∈ inner,
        isCloser line = false)

section Parts

variable {text : List Char} {front body : List (List Char)}

theorem opensFrontMatter_of_lines {opener : List Char}
    {inner : List (List Char)} (hlines : contentLines text = opener :: inner)
    (hopener : isOpener opener = true) :
    opensFrontMatter text = true := by
  simp [opensFrontMatter, hlines, hopener]

theorem HasFront.opens (h : HasFront text front body) :
    opensFrontMatter text = true := by
  obtain ⟨hlines, hopener, -, -⟩ := h
  exact opensFrontMatter_of_lines hlines hopener

theorem NeverClosed.opens (h : NeverClosed text) :
    opensFrontMatter text = true := by
  obtain ⟨hlines, hopener, -⟩ := h
  exact opensFrontMatter_of_lines hlines hopener

theorem neverClosed_or_hasFront (h : opensFrontMatter text = true) :
    NeverClosed text ∨ ∃ front body, HasFront text front body := by
  cases hlines : contentLines text with
  | nil => simp [opensFrontMatter, hlines] at h
  | cons opener inner =>
      have hopener : isOpener opener = true := by
        simpa [opensFrontMatter, hlines] using h
      have hfront : ∀ line ∈ inner.takeWhile (!isCloser ·),
          isCloser line = false :=
        fun line hline => by simpa using List.mem_takeWhile_imp hline
      have hinner :=
        List.takeWhile_append_dropWhile (p := (!isCloser ·)) (l := inner)
      cases hrest : inner.dropWhile (!isCloser ·) with
      | nil =>
          rw [hrest, List.append_nil] at hinner
          rw [hinner] at hfront
          exact .inl ⟨hlines, hopener, hfront⟩
      | cons closer body =>
          have hcloser : isCloser closer = true := by
            have hhead :=
              List.head_dropWhile_not (!isCloser ·)
                (l := inner) (by simp [hrest])
            simpa [hrest] using hhead
          rw [hrest] at hinner
          rw [← hinner] at hlines
          exact .inr ⟨_, body, hlines, hopener, hcloser, hfront⟩

theorem split_of_not_opens (h : opensFrontMatter text = false) :
    split text = .ok ⟨none, text⟩ := by
  simp [split, h]

theorem NeverClosed.split (h : NeverClosed text) :
    split text = .error .unterminatedFrontMatter := by
  have hopens := h.opens
  obtain ⟨hlines, -, hinner⟩ := h
  have hall : ∀ (inner : List (List Char)),
      (∀ line ∈ inner, isCloser line = false) →
      inner.takeWhile (!isCloser ·) = inner := fun inner hinner =>
    List.takeWhile_eq_self_iff.mpr fun line hline => by simp [hinner line hline]
  simp [Document.split, hopens, hlines, hall _ hinner]

theorem HasFront.split (h : HasFront text front body) :
    split text = .ok ⟨some (joinLines front), joinLines body⟩ := by
  have hopens := h.opens
  obtain @⟨opener, closer, hlines, -, hcloser, hfront⟩ := h
  have htake : (front ++ closer :: body).takeWhile (!isCloser ·) = front := by
    rw [List.takeWhile_append_of_pos fun line hline =>
      by simp [hfront line hline]]
    simp [hcloser]
  simp [Document.split, hopens, hlines, htake]

end Parts

/-! ## Reading without a format -/

/-- Why the front matter of a text has no workflow.  Blank front matter is an
empty mapping, and so is the null that front matter without a value reads as. -/
inductive Refused (text : List Char) : DocumentError → Prop
  | neverClosed (h : NeverClosed text) : Refused text .unterminatedFrontMatter
  | unreadable {front body : List (List Char)}
      (hfront : HasFront text front body) (hwritten : trim (joinLines front) ≠
      []) (hread : Yaml.read? (joinLines front) = none) :
      Refused text .frontMatter
  | notAMapping {front body : List (List Char)} {value : Json}
      (hfront : HasFront text front body) (hwritten : trim (joinLines front) ≠
      []) (hread : Yaml.read? (joinLines front) = some value) (hnull :
      value ≠ .null)
      (hmapping : ∀ fields, value ≠ .obj fields) : Refused text .notAMapping

namespace Refused

variable {text : List Char} {e : DocumentError}

theorem opens (h : Refused text e) : opensFrontMatter text = true := by
  cases h with
  | neverClosed h => exact h.opens
  | unreadable hfront => exact hfront.opens
  | notAMapping hfront => exact hfront.opens

theorem code_mem (h : Refused text e) : e.code ∈ ["P001", "P002", "P004"] := by
  cases h <;> simp [DocumentError.code]

end Refused

theorem frontMapping_eq_error {front : List Char} {e : DocumentError}
    (h : frontMapping (some front) = .error e) :
    trim front ≠ [] ∧ (Yaml.read? front = none ∧ e = .frontMatter ∨
      ∃ value, Yaml.read? front = some value ∧ value ≠ .null ∧
        (∀ fields, value ≠ .obj fields) ∧ e = .notAMapping) := by
  unfold frontMapping at h
  dsimp only at h
  split at h
  · cases h
  · next hblank =>
      refine ⟨by simpa using hblank, ?_⟩
      split at h
      · next hread =>
          cases h
          exact .inl ⟨hread, rfl⟩
      · cases h
      · cases h
      · next value hmapping hnull hread =>
          cases h
          exact .inr ⟨value, hread, fun heq => hnull heq,
            fun fields heq => hmapping fields heq, rfl⟩

theorem exists_read_of_isStructured {text : List Char}
    (h : isStructured text = true) :
    ∃ fields, Yaml.read? text = some (.obj fields) := by
  unfold isStructured at h
  split at h
  · next fields hread => exact ⟨fields, hread⟩
  · cases h

section Parse

variable {text : String} {e : DocumentError}

theorem parse_of_opens (h : opensFrontMatter text.toList = true) :
    parse text none = readMarkdown text.toList := by
  simp [parse, formatOf, h]

theorem exists_parse_of_not_opens (h : opensFrontMatter text.toList = false) :
    ∃ w, parse text none = .ok w := by
  cases hstructured : isStructured text.toList with
  | true =>
      have hparse : parse text none = readStructured text.toList := by
        simp [parse, formatOf, h, hstructured]
      obtain ⟨fields, hread⟩ := exists_read_of_isStructured hstructured
      rw [hparse, readStructured, hread]
      exact ⟨_, rfl⟩
  | false =>
      have hparse : parse text none = readMarkdown text.toList := by
        simp [parse, formatOf, h, hstructured]
      rw [hparse, readMarkdown, split_of_not_opens h]
      exact ⟨_, rfl⟩

theorem parse_of_hasFront {front body : List (List Char)}
    (h : HasFront text.toList front body) :
    parse text none = (frontMapping (some (joinLines front))).map
      fun fields => workflowOf fields (some (joinLines body)) := by
  rw [parse_of_opens h.opens, readMarkdown, h.split]
  change (frontMapping (some (joinLines front)) >>= _) = _
  cases frontMapping (some (joinLines front)) <;> rfl

theorem parse_of_refused (h : Refused text.toList e) :
    parse text none = .error e := by
  cases h with
  | neverClosed h =>
      rw [parse_of_opens h.opens, readMarkdown, h.split]
      rfl
  | unreadable hfront hwritten hread =>
      rw [parse_of_hasFront hfront, frontMapping, hread,
        if_neg (by simpa using hwritten)]
      rfl
  | @notAMapping front body value hfront hwritten hread hnull hmapping =>
      rw [parse_of_hasFront hfront, frontMapping, hread,
        if_neg (by simpa using hwritten)]
      cases value with
      | null => exact absurd rfl hnull
      | obj fields => exact absurd rfl (hmapping fields)
      | _ => rfl

theorem refused_of_parse (h : parse text none = .error e) :
    Refused text.toList e := by
  cases hopens : opensFrontMatter text.toList with
  | false =>
      obtain ⟨w, hparse⟩ := exists_parse_of_not_opens hopens
      rw [hparse] at h
      cases h
  | true =>
      rcases neverClosed_or_hasFront hopens with hopen | ⟨front, body, hfront⟩
      · rw [parse_of_refused (.neverClosed hopen)] at h
        cases h
        exact .neverClosed hopen
      · rw [parse_of_hasFront hfront] at h
        cases hmapping : frontMapping (some (joinLines front)) with
        | ok fields =>
            rw [hmapping] at h
            cases h
        | error cause =>
            rw [hmapping] at h
            cases h
            obtain ⟨hwritten,
                ⟨hread, rfl⟩ | ⟨value, hread, hnull, hobj, rfl⟩⟩ :=
              frontMapping_eq_error hmapping
            · exact .unreadable hfront hwritten hread
            · exact .notAMapping hfront hwritten hread hnull hobj

end Parse

/-- Without a format, a document is refused exactly for front matter that is
never closed, cannot be read or is no mapping. -/
theorem parse_refuses_front_matter_only (text : String) :
    (∀ e, parse text none = .error e ↔ Refused text.toList e) ∧
    (∀ e, Refused text.toList e →
      opensFrontMatter text.toList = true ∧ e.code ∈ ["P001", "P002", "P004"]) ∧
    (opensFrontMatter text.toList = false → ∃ w, parse text none = .ok w) :=
  ⟨fun _ => ⟨refused_of_parse, parse_of_refused⟩,
    fun _ h => ⟨h.opens, h.code_mem⟩, exists_parse_of_not_opens⟩

end Workflows.Document
