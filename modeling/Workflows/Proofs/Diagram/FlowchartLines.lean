import Workflows.Diagram.Export
import Workflows.Proofs.Diagram.Identifiers
import Workflows.Proofs.Text.Lines

/-!
# Lines of a Mermaid flowchart

A flowchart is written row by row, but names and labels stand in their rows with
all their line feeds.  Each of these ends a line, so the lines of the text are
the rows exactly where there are none of them.
-/

namespace Workflows.Mermaid

open IndentedText

/-! ## Line feeds of a row -/

def lineFeeds (s : String) : Nat := s.toList.count '\n'

theorem lineFeeds_append (s t : String) :
    lineFeeds (s ++ t) = lineFeeds s + lineFeeds t := by
  rw [lineFeeds, String.toList_append, List.count_append]
  rfl

theorem lineFeeds_eq_zero_iff {s : String} :
    lineFeeds s = 0 ↔ '\n' ∉ s.toList :=
  List.count_eq_zero

theorem lineFeeds_identifier (id : String) : lineFeeds (identifier id) = 0 := by
  refine lineFeeds_eq_zero_iff.mpr fun hmem => ?_
  have hword := identifier_isWord id '\n' hmem
  revert hword
  decide

theorem lineFeeds_label (s : String) : lineFeeds (label s) = lineFeeds s := by
  have hcharacter (c : Char) :
      (if c = '\x22' then "#quot;".toList else [c]).count '\n' =
        [c].count '\n' := by
    split
    · next hc =>
        rw [hc]
        decide
    · rfl
  rw [lineFeeds, label, String.toList_ofList, lineFeeds]
  induction s.toList with
  | nil => rfl
  | cons c rest ih =>
      rw [List.flatMap_cons, List.count_append,
        hcharacter, ih, ← List.count_append]
      rfl

theorem lineFeeds_toString (n : Nat) : lineFeeds (toString n) = 0 := by
  refine lineFeeds_eq_zero_iff.mpr fun hmem => ?_
  rw [Nat.toString_eq_ofList_toDigits, String.toList_ofList] at hmem
  exact absurd (Nat.isDigit_of_mem_toDigits (by decide) (by decide) hmem)
    (by decide)

theorem lineFeeds_comment (g : Graph) :
    lineFeeds (comment g) = lineFeeds g.name := by
  have hpercent : lineFeeds "%% " = 0 := by decide
  have hcomplexity : lineFeeds ": complexity " = 0 := by decide
  have hstatus : lineFeeds ", status " = 0 := by decide
  have hname : lineFeeds g.metadata.status.name = 0 := by
    cases g.metadata.status <;> decide
  simp only [comment, lineFeeds_append, lineFeeds_toString,
    hpercent, hcomplexity, hstatus, hname, Nat.add_zero, Nat.zero_add]

theorem lineFeeds_nodeLine (n : Node) :
    lineFeeds (nodeLine n) = lineFeeds n.name := by
  have hquote : lineFeeds "\"" = 0 := by decide
  have hopen : lineFeeds n.kind.brackets.1 = 0 := by cases n.kind <;> decide
  have hclose : lineFeeds n.kind.brackets.2 = 0 := by cases n.kind <;> decide
  simp only [nodeLine, lineFeeds_append, lineFeeds_identifier, lineFeeds_label,
    hquote, hopen, hclose, Nat.add_zero, Nat.zero_add]

theorem lineFeeds_edgeLine (e : Edge) :
    lineFeeds (edgeLine e) = e.label.elim 0 lineFeeds := by
  have hblank : lineFeeds " " = 0 := by decide
  have hopen : lineFeeds "|\"" = 0 := by decide
  have hclose : lineFeeds "\"| " = 0 := by decide
  have harrow : lineFeeds e.kind.arrow = 0 := by cases e.kind <;> decide
  cases hlabel : e.label <;>
    simp only [edgeLine, hlabel, lineFeeds_append, lineFeeds_identifier,
      lineFeeds_label, hblank, hopen, hclose, harrow, Nat.add_zero,
      Nat.zero_add, Option.elim_none, Option.elim_some]

theorem lineFeeds_styleLine (n : Node) : lineFeeds (styleLine n) = 0 := by
  have hstyle : lineFeeds "style " = 0 := by decide
  have hfill : lineFeeds " fill:" = 0 := by decide
  have hcolor : lineFeeds n.fill = 0 := by
    rw [Node.fill]
    split
    · decide
    · cases n.kind <;> decide
  simp only [styleLine, lineFeeds_append, lineFeeds_identifier, hstyle,
    hfill, hcolor]

/-! ## Line feeds of a text -/

def shownTexts (g : Graph) (includeMetadata : Bool) : List String :=
  (if includeMetadata then [g.name] else []) ++
    (g.nodes.map Node.name ++ g.edges.filterMap Edge.label)

theorem sum_elim_label (edges : List Edge) :
    (edges.map fun e => e.label.elim 0 lineFeeds).sum =
      ((edges.filterMap Edge.label).map lineFeeds).sum := by
  induction edges with
  | nil => rfl
  | cons e edges ih => cases hlabel : e.label <;> simp [hlabel, ih]

theorem sum_lineFeeds_rows (g : Graph) (includeMetadata : Bool) :
    ((rows g includeMetadata).map lineFeeds).sum =
      ((shownTexts g includeMetadata).map lineFeeds).sum := by
  have hhead : lineFeeds "flowchart TD" = 0 := by decide
  have hindentation : lineFeeds (indentation 1) = 0 := by decide
  cases includeMetadata <;>
    simp [rows, shownTexts, Function.comp_def, lineFeeds_append, hhead,
      hindentation, lineFeeds_comment, lineFeeds_nodeLine, lineFeeds_edgeLine,
      lineFeeds_styleLine, sum_elim_label]

theorem length_rows (g : Graph) (includeMetadata : Bool) :
    (rows g includeMetadata).length =
      1 + (if includeMetadata then 1 else 0) + 2 * g.nodes.length +
        g.edges.length := by
  cases includeMetadata <;> simp [rows] <;> omega

theorem toList_text_write (g : Graph) (includeMetadata : Bool) :
    (write g includeMetadata).text.toList =
      ((rows g includeMetadata).map String.toList).flatMap (· ++ ['\n']) := by
  rw [IndentedText.text, lines_write]
  simp [String.toList_join, List.flatMap_map]

/-! ## Ends of rows -/

def EndsPlain (s : String) : Prop := s.toList.getLast?.any (· != '\r') = true

instance (s : String) : Decidable (EndsPlain s) :=
  inferInstanceAs (Decidable (s.toList.getLast?.any (· != '\r') = true))

theorem EndsPlain.append {t : String} (h : EndsPlain t) (s : String) :
    EndsPlain (s ++ t) := by
  rw [EndsPlain, Option.any_eq_true] at h ⊢
  obtain ⟨c, hlast, hc⟩ := h
  exact ⟨c,
    by rw [String.toList_append, List.getLast?_append, hlast, Option.some_or],
    hc⟩

theorem EndsPlain.withoutReturn_eq {s : String} (h : EndsPlain s) :
    Text.withoutReturn s.toList = s.toList := by
  refine Text.withoutReturn_eq_self fun hlast => ?_
  rw [EndsPlain, hlast] at h
  exact absurd h (by decide)

theorem endsPlain_identifier (id : String) : EndsPlain (identifier id) := by
  have hne : (identifier id).toList ≠ [] := by simp [identifier]
  have hlast := identifier_isWord id _ (List.getLast_mem hne)
  rw [EndsPlain, List.getLast?_eq_some_getLast hne, Option.any_some, bne_iff_ne]
  intro hreturn
  rw [hreturn] at hlast
  exact absurd hlast (by decide)

theorem endsPlain_edgeLine (e : Edge) : EndsPlain (edgeLine e) := by
  rw [edgeLine]
  split <;> exact (endsPlain_identifier e.target).append _

theorem endsPlain_fill (n : Node) : EndsPlain n.fill := by
  rw [Node.fill]
  split
  · decide
  · cases n.kind <;> decide

theorem endsPlain_of_mem_rows {g : Graph} {includeMetadata : Bool} :
    ∀ row ∈ rows g includeMetadata, EndsPlain row := by
  have hcomment : EndsPlain (comment g) :=
    EndsPlain.append (by cases g.metadata.status <;> decide) _
  have hnode (n : Node) : EndsPlain (nodeLine n) :=
    EndsPlain.append (by cases n.kind <;> decide) _
  have hstyle (n : Node) : EndsPlain (styleLine n) :=
    (endsPlain_fill n).append _
  rw [rows]
  simp only [List.forall_mem_cons, List.forall_mem_append, List.forall_mem_map]
  refine ⟨by decide, ?_, fun n _ => (hnode n).append _,
    fun e _ => (endsPlain_edgeLine e).append _, fun n _ => (hstyle n).append _⟩
  cases includeMetadata with
  | false => exact List.forall_mem_nil _
  | true => exact List.forall_mem_singleton.mpr (hcomment.append _)

/-! ## Lines -/

section

variable {g : Graph} {includeMetadata : Bool}

theorem exportText_eq (pretty : Bool) :
    g.exportText ⟨.mermaid, includeMetadata, pretty⟩ =
      (write g includeMetadata).text := rfl

theorem length_lines_text (g : Graph) (includeMetadata : Bool) :
    (Text.lines (write g includeMetadata).text.toList).length =
      (rows g includeMetadata).length +
        ((shownTexts g includeMetadata).map lineFeeds).sum := by
  rw [toList_text_write, Text.length_lines_flatMap, List.length_map,
    List.map_map, ← sum_lineFeeds_rows]
  rfl

theorem sum_lineFeeds_eq_zero_iff :
    ((shownTexts g includeMetadata).map lineFeeds).sum = 0 ↔
    ∀ s ∈ shownTexts g includeMetadata, '\n' ∉ s.toList := by
  simp [List.sum_eq_zero_iff_forall_eq_nat, lineFeeds_eq_zero_iff]

theorem lines_text_eq_rows
    (h : ((shownTexts g includeMetadata).map lineFeeds).sum = 0) :
    Text.lines (write g includeMetadata).text.toList =
      (rows g includeMetadata).map String.toList := by
  have hrows : ∀ row ∈ rows g includeMetadata, '\n' ∉ row.toList := by
    rw [← sum_lineFeeds_rows, List.sum_eq_zero_iff_forall_eq_nat] at h
    exact fun row hrow =>
      lineFeeds_eq_zero_iff.mp (h _ (List.mem_map_of_mem hrow))
  have hlines := Text.lines_flatMap_append (List.forall_mem_map.mpr hrows) []
  rw [List.append_nil, Text.lines_nil, List.append_nil, List.map_map] at hlines
  rw [toList_text_write, hlines]
  exact List.map_congr_left fun row hrow =>
    (endsPlain_of_mem_rows row hrow).withoutReturn_eq

end

/-- The text has a line for each row and one more for each line feed of a name
or label that is shown, so its lines are the rows exactly where there is no such
line feed. -/
theorem lines_eq_rows_iff (g : Graph) (includeMetadata pretty : Bool) :
    (Text.lines (g.exportText ⟨.mermaid, includeMetadata,
      pretty⟩).toList).length =
      1 + (if includeMetadata then 1 else 0) + 2 *
        g.nodes.length + g.edges.length +
        ((shownTexts g includeMetadata).map lineFeeds).sum ∧
    (Text.lines (g.exportText ⟨.mermaid, includeMetadata, pretty⟩).toList =
        (rows g includeMetadata).map String.toList ↔
      ∀ s ∈ shownTexts g includeMetadata, '\n' ∉ s.toList) := by
  have hlength := length_lines_text g includeMetadata
  rw [exportText_eq, ← sum_lineFeeds_eq_zero_iff, ← length_rows]
  refine ⟨hlength, fun hlines => ?_, lines_text_eq_rows⟩
  rw [hlines, List.length_map] at hlength
  omega

def brokenName : Workflow where
  name := "Release\n  n_end --> n_start\n%%"
  description := none
  version := none
  author := none
  steps := [.ofName "step-1" "Build\nand test"]
  dependencies := []
  metadata := []

theorem lines_not_rows_brokenName :
    ¬ ∀ (g : Graph) (includeMetadata pretty : Bool),
      (Text.lines (g.exportText ⟨.mermaid, includeMetadata,
        pretty⟩).toList).length =
        1 + (if includeMetadata then 1 else 0) + 2 * g.nodes.length +
          g.edges.length := by
  intro h
  have hlength := h (Graph.ofWorkflow brokenName "spec") true false
  have hfeeds :
      ((shownTexts (Graph.ofWorkflow brokenName "spec") true).map
        lineFeeds).sum = 3 := by
    decide +kernel
  rw [exportText_eq, length_lines_text, length_rows, hfeeds] at hlength
  omega

end Workflows.Mermaid
