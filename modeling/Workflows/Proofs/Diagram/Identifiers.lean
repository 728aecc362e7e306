import Mathlib.Data.List.Forall2
import Mathlib.Data.List.Nodup
import Workflows.Diagram.Mermaid
import Workflows.Graph.Build

/-!
# Identifiers of a Mermaid flowchart

A node line begins with the identifier of its node, and an arrow stands between
those of its ends.  An identifier keeps the letters and digits of an id and no
more than the number and places of all other characters, so nodes whose ids
differ in these characters only are one node of the flowchart.
-/

namespace Workflows.Mermaid

open IndentedText

/-! ## Words of a line -/

def isWordCharacter (c : Char) : Bool := c.isAlphanum || c == '_'

def firstWord (line : String) : String :=
  String.ofList ((line.toList.dropWhile (· == ' ')).takeWhile isWordCharacter)

def lastWord (line : String) : String :=
  String.ofList (line.toList.reverse.takeWhile isWordCharacter).reverse

/-! ## Rows -/

/-- The rows of a flowchart: the head, the comment, the nodes, the edges and the
fills. -/
def rows (g : Graph) (includeMetadata : Bool) : List String :=
  "flowchart TD" ::
    ((if includeMetadata then [indentation 1 ++ comment g] else []) ++
    (g.nodes.map (fun n => indentation 1 ++ nodeLine n) ++
      (g.edges.map (fun e => indentation 1 ++ edgeLine e) ++
        g.nodes.map (fun n => indentation 1 ++ styleLine n))))

theorem lines_write (g : Graph) (includeMetadata : Bool) :
    (write g includeMetadata).lines.reverse = rows g includeMetadata := by
  have hlines : ∀ w : IndentedText, w.indent.lines = w.lines := fun _ => rfl
  have houtdent : ∀ w : IndentedText, w.outdent.lines = w.lines := fun _ => rfl
  have hlevel : ∀ w : IndentedText, w.indent.level = w.level + 1 := fun _ => rfl
  have hempty : IndentedText.empty = ⟨[], 0⟩ := rfl
  have hindentation : indentation 0 = "" := rfl
  cases includeMetadata <;>
    simp [rows, write, lines_addLines, level_addLines, hlines, houtdent,
      hlevel, hempty, hindentation, Function.comp_def]

/-- The lines of a flowchart behind its head, the first line and the comment. -/
def statements (g : Graph) (includeMetadata : Bool) : List String :=
  (write g includeMetadata).lines.reverse.drop (if includeMetadata then 2
    else 1)

def declared (g : Graph) (includeMetadata : Bool) : List String :=
  ((statements g includeMetadata).take g.nodes.length).map firstWord

def arrows (g : Graph) (includeMetadata : Bool) : List (String × String) :=
  (((statements g includeMetadata).drop g.nodes.length).take g.edges.length).map
    fun line => (firstWord line, lastWord line)

theorem statements_eq (g : Graph) (includeMetadata : Bool) :
    statements g includeMetadata =
      g.nodes.map (fun n => indentation 1 ++ nodeLine n) ++
      (g.edges.map (fun e => indentation 1 ++ edgeLine e) ++
        g.nodes.map (fun n => indentation 1 ++ styleLine n)) := by
  rw [statements, lines_write]
  cases includeMetadata <;> rfl

/-! ## Identifiers -/

theorem identifier_isWord (id : String) :
    ∀ c ∈ (identifier id).toList, isWordCharacter c = true := by
  intro c hc
  rw [identifier, String.toList_ofList, List.mem_cons, List.mem_cons,
    List.mem_map] at hc
  rcases hc with rfl | rfl | ⟨d, -, rfl⟩
  · decide
  · decide
  · by_cases hd : d.isAlphanum = true <;> simp [isWordCharacter, hd]

theorem firstWord_identifier {id : String} {rest : List Char} {line : String}
    (hline : line.toList = ' ' :: ' ' :: ((identifier id).toList ++ rest))
    (hrest : ∀ c ∈ rest.head?, isWordCharacter c = false) :
    firstWord line = identifier id := by
  have hstart : ((identifier id).toList ++ rest).dropWhile (· == ' ') =
      (identifier id).toList ++ rest := by
    simp [identifier]
  have hstop : rest.takeWhile isWordCharacter = [] := by
    cases rest with
    | nil => rfl
    | cons c rest => simp [hrest c rfl]
  rw [firstWord, hline, List.dropWhile_cons_of_pos rfl,
    List.dropWhile_cons_of_pos rfl, hstart,
    List.takeWhile_append_of_pos (identifier_isWord id), hstop, List.append_nil,
    String.ofList_toList]

theorem lastWord_identifier {id : String} {before : List Char} {line : String}
    (hline : line.toList = before ++ ' ' :: (identifier id).toList) :
    lastWord line = identifier id := by
  have hword : ∀ c ∈ (identifier id).toList.reverse, isWordCharacter c = true :=
    fun c hc =>
    identifier_isWord id c (List.mem_reverse.mp hc)
  have hblank : isWordCharacter ' ' = false := by decide
  have hreverse : line.toList.reverse =
      (identifier id).toList.reverse ++ ' ' :: before.reverse := by
    simp [hline]
  rw [lastWord, hreverse, List.takeWhile_append_of_pos hword]
  simp [hblank]

theorem firstWord_nodeLine (n : Node) :
    firstWord (indentation 1 ++ nodeLine n) = identifier n.id := by
  have hline : (indentation 1 ++ nodeLine n).toList =
      ' ' :: ' ' :: ((identifier n.id).toList ++ (n.kind.brackets.1.toList ++
        ('\x22' :: (label n.name).toList ++ '\x22' ::
          n.kind.brackets.2.toList))) := by
    simp [nodeLine, indentation]
  refine firstWord_identifier hline ?_
  cases n.kind <;> simp [NodeKind.brackets, isWordCharacter, Char.isAlphanum]

def arrowText (e : Edge) : List Char :=
  e.kind.arrow.toList ++
    match e.label with
    | some text => '|' :: '\x22' :: ((label text).toList ++ ['\x22', '|'])
    | none => []

theorem toList_edgeLine (e : Edge) :
    (indentation 1 ++ edgeLine e).toList = ' ' :: ' ' ::
      ((identifier e.source).toList ++
      ' ' :: (arrowText e ++ ' ' :: (identifier e.target).toList)) := by
  cases hlabel : e.label <;> simp [edgeLine, arrowText, indentation, hlabel]

theorem firstWord_edgeLine (e : Edge) :
    firstWord (indentation 1 ++ edgeLine e) = identifier e.source :=
  firstWord_identifier (toList_edgeLine e) (by simp; decide)

theorem lastWord_edgeLine (e : Edge) :
    lastWord (indentation 1 ++ edgeLine e) = identifier e.target := by
  have hline : (indentation 1 ++ edgeLine e).toList =
      (' ' :: ' ' :: ((identifier e.source).toList ++ ' ' :: arrowText e)) ++
        ' ' :: (identifier e.target).toList := by
    rw [toList_edgeLine]
    simp
  exact lastWord_identifier hline

theorem declared_eq (g : Graph) (includeMetadata : Bool) :
    declared g includeMetadata = g.ids.map identifier := by
  rw [declared, statements_eq, List.take_left' (List.length_map _),
    List.map_map, Graph.ids, List.map_map]
  exact List.map_congr_left fun n _ => firstWord_nodeLine n

theorem arrows_eq (g : Graph) (includeMetadata : Bool) :
    arrows g includeMetadata =
      g.edges.map fun e => (identifier e.source, identifier e.target) := by
  rw [arrows, statements_eq, List.drop_left' (List.length_map _),
    List.take_left' (List.length_map _), List.map_map]
  refine List.map_congr_left fun e _ => ?_
  rw [Function.comp_apply, firstWord_edgeLine, lastWord_edgeLine]

/-! ## Ids that are written alike -/

/-- The same letters and digits at the same places, and equally many
characters. -/
def Alike (id other : String) : Prop :=
  List.Forall₂ (fun c d => c = d ∨ c.isAlphanum = false ∧ d.isAlphanum = false)
    id.toList other.toList

theorem written_eq_iff {c d : Char} :
    ((if c.isAlphanum then c else '_') = if d.isAlphanum then d else '_') ↔
      c = d ∨ c.isAlphanum = false ∧ d.isAlphanum = false := by
  have hline : ∀ c : Char, c.isAlphanum = true → c ≠ '_' := by
    rintro c hc rfl
    exact absurd hc (by decide)
  by_cases hc : c.isAlphanum = true
  · by_cases hd : d.isAlphanum = true
    · simp [hc, hd]
    · have hne : c ≠ d := fun heq => hd (heq ▸ hc)
      simp [hc, hd, hne, hline c hc]
  · by_cases hd : d.isAlphanum = true
    · have hne : c ≠ d := fun heq => hc (heq ▸ hd)
      simp [hc, hd, hne, (hline d hd).symm]
    · simp [hc, hd]

theorem identifier_eq_iff {id other : String} :
    identifier id = identifier other ↔ Alike id other := by
  rw [identifier, identifier, String.ofList_inj, List.cons_inj_right,
    List.cons_inj_right, Alike, ← List.forall₂_eq_eq_eq,
    List.forall₂_map_left_iff, List.forall₂_map_right_iff]
  simp only [written_eq_iff]

/-- The nodes are declared and the arrows drawn under identifiers that agree for
ids that are alike and for no others. -/
theorem declared_nodup_iff (g : Graph) (includeMetadata : Bool) :
    declared g includeMetadata = g.ids.map identifier ∧
    arrows g includeMetadata =
      g.edges.map (fun e => (identifier e.source, identifier e.target)) ∧
    (∀ id other, identifier id = identifier other ↔ Alike id other) ∧
    ((declared g includeMetadata).Nodup ↔ g.ids.Pairwise fun id other =>
      ¬ Alike id other) := by
  refine ⟨declared_eq g includeMetadata, arrows_eq g includeMetadata,
    fun _ _ => identifier_eq_iff, ?_⟩
  rw [declared_eq, List.Nodup, List.pairwise_map]
  simp only [ne_eq, identifier_eq_iff]

def twoReviewers : Workflow where
  name := "reviews"
  description := none
  version := none
  author := none
  steps := []
  dependencies :=
    [.ofName .agent "code.reviewer", .ofName .agent "code-reviewer"]
  metadata := []

theorem declared_not_nodup_twoReviewers :
    ¬ ∀ (g : Graph) (includeMetadata : Bool), g.ids.Nodup →
      (declared g includeMetadata).Nodup := by
  intro h
  have hnodup :=
    h (Graph.ofWorkflow twoReviewers "spec") true (by decide +kernel)
  revert hnodup
  decide +kernel

end Workflows.Mermaid
