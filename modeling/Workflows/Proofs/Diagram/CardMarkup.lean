import Mathlib.Data.List.Basic
import Workflows.Diagram.Export

/-!
# Markup of the summary card

A name stands on the card in escaped form.  Escaped text holds no bracket and no
quotation mark, and its entities, decoded from left to right, give the name
back.  So a reader of markup finds the same tags on every card, and the content
of the first text element tells the name.
-/

namespace Workflows.Svg

open IndentedText

/-! ## Escaping -/

/-- What stands behind the ampersand of an entity. -/
def entities : List String := ["amp;", "lt;", "gt;", "quot;"]

def IsPlain (c : Char) : Prop := c ≠ '<' ∧ c ≠ '>' ∧ c ≠ '\x22'

instance (c : Char) : Decidable (IsPlain c) :=
  inferInstanceAs (Decidable (_ ∧ _))

/-- Decodes the entities in one pass from left to right; all else stands for
itself. -/
def decode : List Char → List Char
  | '&' :: 'a' :: 'm' :: 'p' :: ';' :: rest => '&' :: decode rest
  | '&' :: 'l' :: 't' :: ';' :: rest => '<' :: decode rest
  | '&' :: 'g' :: 't' :: ';' :: rest => '>' :: decode rest
  | '&' :: 'q' :: 'u' :: 'o' :: 't' :: ';' :: rest => '\x22' :: decode rest
  | c :: rest => c :: decode rest
  | [] => []

def replaced (c : Char) (text : String) (s : List Char) : List Char :=
  s.flatMap fun d => if d = c then text.toList else [d]

theorem toList_escape (s : String) :
    (escape s).toList = s.toList.flatMap escapeChar :=
  String.toList_ofList

/-- The ampersands come first: those of the entities are put in behind them. -/
theorem escape_eq_replaced (s : String) :
    (escape s).toList = replaced '\x22' "&quot;" (replaced '>' "&gt;"
      (replaced '<' "&lt;" (replaced '&' "&amp;" s.toList))) := by
  rw [toList_escape]
  simp only [replaced, List.flatMap_assoc]
  refine congrArg s.toList.flatMap (funext fun c => ?_)
  by_cases hamp : c = '&'
  · subst hamp
    rfl
  by_cases hlt : c = '<'
  · subst hlt
    rfl
  by_cases hgt : c = '>'
  · subst hgt
    rfl
  · simp only [escapeChar, hamp, hlt, hgt, ↓reduceIte, List.flatMap_cons,
      List.flatMap_nil, List.append_nil]

theorem escapeChar_cases (c : Char) :
    (∃ e ∈ entities, escapeChar c = '&' :: e.toList) ∨
      escapeChar c = [c] ∧ IsPlain c ∧ c ≠ '&' := by
  unfold escapeChar
  split_ifs with hamp hlt hgt hquote
  · exact .inl ⟨"amp;", by decide, rfl⟩
  · exact .inl ⟨"lt;", by decide, rfl⟩
  · exact .inl ⟨"gt;", by decide, rfl⟩
  · exact .inl ⟨"quot;", by decide, rfl⟩
  · exact .inr ⟨rfl, ⟨hlt, hgt, hquote⟩, hamp⟩

theorem entities_plain :
    ∀ e ∈ entities, ∀ c ∈ e.toList, IsPlain c ∧ c ≠ '&' := by
  have hall : entities.all fun e => e.toList.all fun c =>
      IsPlain c ∧ c ≠ '&' := by decide
  simpa only [List.all_eq_true, decide_eq_true_eq] using hall

theorem isPlain_of_mem_escape {s : String} :
    ∀ c ∈ (escape s).toList, IsPlain c := by
  rw [toList_escape]
  intro c hc
  obtain ⟨d, -, hd⟩ := List.mem_flatMap.mp hc
  rcases escapeChar_cases d with ⟨e, he, heq⟩ | ⟨heq, hplain, -⟩
  · rw [heq] at hd
    rcases List.mem_cons.mp hd with rfl | hd
    · decide
    · exact (entities_plain e he c hd).1
  · rw [heq, List.mem_singleton] at hd
    rwa [hd]

theorem entity_of_flatMap_eq {s before after : List Char}
    (h : s.flatMap escapeChar = before ++ '&' :: after) :
    ∃ e ∈ entities, e.toList <+: after := by
  induction s generalizing before with
  | nil => simp at h
  | cons c rest ih =>
      rw [List.flatMap_cons] at h
      rcases List.append_eq_append_iff.mp h with
          ⟨between, -, hrest⟩ | ⟨between, hchar, hafter⟩
      · exact ih hrest
      · cases between with
        | nil => exact @ih [] hafter.symm
        | cons first between =>
            obtain ⟨rfl, rfl⟩ := List.cons.inj hafter
            rcases escapeChar_cases c with ⟨e, he, heq⟩ | ⟨heq, -, hamp⟩
            · rw [heq] at hchar
              cases before with
              | nil => exact ⟨e, he, by simp [(List.cons.inj hchar).2]⟩
              | cons first before =>
                  have hmem : '&' ∈ e.toList := by
                    simp [(List.cons.inj hchar).2]
                  exact absurd rfl (entities_plain e he '&' hmem).2
            · rw [heq] at hchar
              have hmem : '&' ∈ [c] := by simp [hchar]
              exact absurd (List.mem_singleton.mp hmem).symm hamp

theorem decode_cons_of_ne {c : Char} (h : c ≠ '&') (rest : List Char) :
    decode (c :: rest) = c :: decode rest := by
  rw [decode] <;> simp [h]

theorem decode_escapeChar (c : Char) (rest : List Char) :
    decode (escapeChar c ++ rest) = c :: decode rest := by
  unfold escapeChar
  split_ifs with hamp hlt hgt hquote
  · rw [hamp]
    rfl
  · rw [hlt]
    rfl
  · rw [hgt]
    rfl
  · rw [hquote]
    rfl
  · exact decode_cons_of_ne hamp rest

theorem decode_escape (s : String) : decode (escape s).toList = s.toList := by
  rw [toList_escape]
  induction s.toList with
  | nil => rfl
  | cons c rest ih => rw [List.flatMap_cons, decode_escapeChar, ih]

example : escape "&lt;b>" = "&amp;lt;b&gt;" := by decide

/-! ## Pieces of markup -/

/-- What markup is made of: texts, and tags without their brackets. -/
inductive Piece where
  | text (chars : List Char)
  | tag (chars : List Char)
  deriving DecidableEq, Repr

def Piece.tag? : Piece → Option (List Char)
  | .text _ => none
  | .tag chars => some chars

/-- Reads on in a tag or, outside of all tags, in a text of which something has
been seen.  A bracket that opens inside a tag or closes outside, and a tag
without end, are refused. -/
def readOn? : (inTag : Bool) → (seen : List Char) → List Char →
    Option (List Piece)
  | false, seen, [] => some [.text seen]
  | true, _, [] => none
  | false, seen, c :: rest =>
      if c = '<' then (readOn? true [] rest).map (.text seen :: ·)
      else if c = '>' then none
      else readOn? false (seen ++ [c]) rest
  | true, seen, c :: rest =>
      if c = '>' then (readOn? false [] rest).map (.tag seen :: ·)
      else if c = '<' then none
      else readOn? true (seen ++ [c]) rest

/-- The texts and tags of markup, which begins and ends with a text. -/
def pieces? (s : List Char) : Option (List Piece) := readOn? false [] s

/-- The content of the first element of a name that holds nothing but text. -/
def content? (name : List Char) : List Piece → Option (List Char)
  | [] => none
  | .tag opening :: .text content :: .tag closing :: rest =>
      if opening.takeWhile (· ≠ ' ') = name ∧ closing = '/' :: name then
        some content
      else content? name (.text content :: .tag closing :: rest)
  | _ :: rest => content? name rest

def IsUnbracketed (s : List Char) : Prop := ∀ c ∈ s, c ≠ '<' ∧ c ≠ '>'

instance (s : List Char) : Decidable (IsUnbracketed s) :=
  List.decidableBAll _ s

theorem readOn?_append {part : List Char} (h : IsUnbracketed part)
    (inTag : Bool) (seen rest : List Char) :
    readOn? inTag seen (part ++ rest) = readOn? inTag (seen ++ part) rest := by
  induction part generalizing seen with
  | nil => rw [List.nil_append, List.append_nil]
  | cons c part ih =>
      obtain ⟨⟨hlt, hgt⟩, hpart⟩ := List.forall_mem_cons.mp h
      cases inTag <;> simp [readOn?, hlt, hgt, ih hpart]

theorem IsUnbracketed.append {s t : List Char} (hs : IsUnbracketed s)
    (ht : IsUnbracketed t) :
    IsUnbracketed (s ++ t) :=
  List.forall_mem_append.mpr ⟨hs, ht⟩

def markup (parts : List (List Char × List Char)) : List Char :=
  parts.flatMap fun (text, tag) => text ++ '<' :: (tag ++ ['>'])

def piecesOf (parts : List (List Char × List Char)) (last : List Char) :
    List Piece :=
  parts.flatMap (fun (text, tag) => [.text text, .tag tag]) ++ [.text last]

theorem pieces?_markup {parts : List (List Char × List Char)} {last : List Char}
    (hparts : ∀ p ∈ parts, IsUnbracketed p.1 ∧ IsUnbracketed p.2)
    (hlast : IsUnbracketed last) :
    pieces? (markup parts ++ last) = some (piecesOf parts last) := by
  induction parts with
  | nil =>
      have hend := readOn?_append hlast false [] []
      rw [List.append_nil] at hend
      exact hend
  | cons part parts ih =>
      obtain ⟨⟨htext, htag⟩, hparts⟩ := List.forall_mem_cons.mp hparts
      have hmarkup : markup (part :: parts) ++ last =
          part.1 ++ '<' :: (part.2 ++ '>' :: (markup parts ++ last)) := by
        simp [markup]
      have hrest := ih hparts
      rw [pieces?] at hrest
      rw [hmarkup, pieces?, readOn?_append htext, readOn?,
        if_pos rfl, readOn?_append htag, readOn?, if_pos rfl, hrest]
      rfl

theorem tags_piecesOf (parts : List (List Char × List Char))
    (last : List Char) :
    (piecesOf parts last).filterMap Piece.tag? = parts.map Prod.snd := by
  induction parts with
  | nil => rfl
  | cons part parts ih =>
      rw [List.map_cons, ← ih]
      rfl

/-! ## The card -/

def rootTag : String :=
  "svg xmlns=\"http://www.w3.org/2000/svg\" width=\"400\" height=\"120\" " ++
    "viewBox=\"0 0 400 120\""

def frameTag : String :=
  "rect width=\"400\" height=\"120\" fill=\"#FFFFFF\" stroke=\"#CCCCCC\"/"

def textTag (y size : String) : String :=
  "text x=\"20\" y=\"" ++ y ++ "\" font-family=\"sans-serif\" font-size=\"" ++
    size ++ "\""

def cardTags : List String :=
  [rootTag, frameTag, textTag "45" "16", "/text", textTag "80" "12", "/text",
    "/svg"]

def cardTexts (g : Graph) : List String :=
  ["", "\n  ", "\n  ", escape g.name, "\n  ", summary g, "\n"]

def cardParts (g : Graph) : List (List Char × List Char) :=
  ((cardTexts g).map String.toList).zip (cardTags.map String.toList)

theorem toList_ofList_cons (c : Char) (s : List Char) :
    (String.ofList (c :: s)).toList = c :: (String.ofList s).toList := by
  simp only [String.toList_ofList]

theorem toList_ofList_tag {s tag : List Char} (h : s = '<' :: (tag ++ ['>'])) :
    (String.ofList s).toList =
      '<' :: ((String.ofList tag).toList ++ ['>']) := by
  simp only [String.toList_ofList, h]

theorem toList_textElement (y size content : String) :
    (textElement y size content).toList =
      '<' :: ((textTag y size).toList ++ '>' ::
      (content.toList ++ '<' :: ("/text".toList ++ ['>']))) := by
  have hopening :
      "<text x=\"20\" y=\"".toList = '<' :: "text x=\"20\" y=\"".toList :=
    toList_ofList_cons ..
  have hclosing : "\">".toList = "\"".toList ++ ['>'] := rfl
  have hend : "</text>".toList = '<' :: ("/text".toList ++ ['>']) :=
    toList_ofList_tag rfl
  delta textElement textTag
  simp only [String.toList_append, hopening, hclosing, hend, List.append_assoc,
    List.cons_append, List.nil_append]

theorem toList_opening : opening.toList = '<' :: (rootTag.toList ++ ['>']) := by
  decide +kernel

theorem toList_frame : frame.toList = '<' :: (frameTag.toList ++ ['>']) :=
  toList_ofList_tag rfl

theorem lines_write (g : Graph) :
    (write g).lines.reverse =
      [indentation 0 ++ opening, indentation 1 ++ frame,
        indentation 1 ++ textElement "45" "16" (escape g.name),
        indentation 1 ++ textElement "80" "12" (summary g),
        indentation 0 ++ "</svg>"] := rfl

theorem toList_text_write (g : Graph) :
    (write g).text.toList = markup (cardParts g) ++ ['\n'] := by
  have hnothing : "".toList = [] := rfl
  have hfeed : "\n".toList = ['\n'] := rfl
  have houter : (indentation 0).toList = [] := rfl
  have hinner : "\n  ".toList = '\n' :: (indentation 1).toList := rfl
  have hend : "</svg>".toList = '<' :: ("/svg".toList ++ ['>']) :=
    toList_ofList_tag rfl
  rw [IndentedText.text, lines_write, String.toList_join]
  simp only [markup, cardParts, cardTexts, cardTags, List.map_cons,
    List.map_nil, List.zip_cons_cons, List.zip_nil_left, List.flatMap_cons,
    List.flatMap_nil, String.toList_append, toList_textElement, toList_opening,
    toList_frame, hnothing, hfeed, houter, hinner, hend, List.append_assoc,
    List.cons_append, List.nil_append, List.append_nil]

theorem isUnbracketed_ofList (s : List Char)
    (h : s.all fun c => c ≠ '<' && c ≠ '>') :
    IsUnbracketed (String.ofList s).toList := by
  rw [String.toList_ofList]
  simpa [IsUnbracketed] using h

theorem isUnbracketed_textTag {y size : String} (hy : IsUnbracketed y.toList)
    (hsize : IsUnbracketed size.toList) :
    IsUnbracketed (textTag y size).toList := by
  delta textTag
  simp only [String.toList_append]
  exact ((((isUnbracketed_ofList _ (by decide)).append hy).append
    (isUnbracketed_ofList _ (by decide))).append hsize).append
    (isUnbracketed_ofList _ (by decide))

theorem isUnbracketed_of_mem_cardTags :
    ∀ t ∈ cardTags, IsUnbracketed t.toList := by
  have hroot : IsUnbracketed rootTag.toList := by
    delta rootTag
    simp only [String.toList_append]
    exact (isUnbracketed_ofList _ (by decide)).append
      (isUnbracketed_ofList _ (by decide))
  have hframe : IsUnbracketed frameTag.toList :=
    isUnbracketed_ofList _ (by decide)
  simp only [cardTags, List.forall_mem_cons]
  refine ⟨hroot, hframe, isUnbracketed_textTag ?_ ?_, ?_,
    isUnbracketed_textTag ?_ ?_, ?_, ?_, List.forall_mem_nil _⟩ <;>
    exact isUnbracketed_ofList _ (by decide)

theorem isUnbracketed_summary (g : Graph) :
    IsUnbracketed (summary g).toList := by
  have hnumber (n : Nat) : IsUnbracketed (toString n).toList := by
    intro c hc
    rw [Nat.toString_eq_ofList_toDigits, String.toList_ofList] at hc
    have hdigit := Nat.isDigit_of_mem_toDigits (by decide) (by decide) hc
    constructor <;> rintro rfl <;> exact absurd hdigit (by decide)
  simp only [summary, String.toList_append]
  exact (((hnumber _).append (isUnbracketed_ofList _ (by decide))).append
    (hnumber _)).append (isUnbracketed_ofList _ (by decide))

theorem isUnbracketed_of_mem_cardTexts (g : Graph) :
    ∀ t ∈ cardTexts g, IsUnbracketed t.toList := by
  have hname : IsUnbracketed (escape g.name).toList := fun c hc =>
    ⟨(isPlain_of_mem_escape c hc).1, (isPlain_of_mem_escape c hc).2.1⟩
  simp only [cardTexts, List.forall_mem_cons]
  refine ⟨?_, ?_, ?_, hname, ?_, isUnbracketed_summary g, ?_,
    List.forall_mem_nil _⟩ <;> decide

theorem pieces?_write (g : Graph) :
    pieces? (write g).text.toList = some (piecesOf (cardParts g) ['\n']) := by
  rw [toList_text_write]
  refine pieces?_markup (fun p hp => ?_) (by decide)
  obtain ⟨htext, htag⟩ := List.of_mem_zip (a := p.1) (b := p.2) hp
  obtain ⟨text, htext, heq⟩ := List.mem_map.mp htext
  obtain ⟨tag, htag, heq'⟩ := List.mem_map.mp htag
  rw [← heq, ← heq']
  exact ⟨isUnbracketed_of_mem_cardTexts g text htext,
    isUnbracketed_of_mem_cardTags tag htag⟩

theorem tags_card (g : Graph) :
    (piecesOf (cardParts g) ['\n']).filterMap Piece.tag? =
      cardTags.map String.toList := by
  rw [tags_piecesOf, cardParts, List.map_snd_zip]
  exact Nat.le_refl 7

theorem content?_card (g : Graph) :
    content? "text".toList (piecesOf (cardParts g) ['\n']) =
      some (escape g.name).toList := by
  rfl

/-- Escaping puts an entity for each special character and can be undone.  So an
exported card has the same tags for all graphs, and the first text element tells
the name. -/
theorem card_tells_name (s : String) (g : Graph)
    (includeMetadata pretty : Bool) :
    ((escape s).toList = replaced '\x22' "&quot;" (replaced '>' "&gt;"
        (replaced '<' "&lt;" (replaced '&' "&amp;" s.toList))) ∧
      (∀ c ∈ (escape s).toList, c ≠ '<' ∧ c ≠ '>' ∧ c ≠ '\x22') ∧
      (∀ before after, (escape s).toList = before ++ '&' :: after →
        ∃ e ∈ entities, e.toList <+: after) ∧
      decode (escape s).toList = s.toList) ∧
    ∃ pieces, pieces? (g.exportText ⟨.svg, includeMetadata, pretty⟩).toList =
      some pieces ∧
      pieces.filterMap Piece.tag? = cardTags.map String.toList ∧
      (content? "text".toList pieces).map decode = some g.name.toList := by
  refine ⟨⟨escape_eq_replaced s, isPlain_of_mem_escape, fun before after h =>
    ?_, decode_escape s⟩, _, pieces?_write g, tags_card g, ?_⟩
  · rw [toList_escape] at h
    exact entity_of_flatMap_eq h
  · rw [content?_card, Option.map_some, decode_escape]

end Workflows.Svg
