import Workflows.Proofs.Graph.Places
import Workflows.Query

/-!
# The JSON export loses nothing

The text of a graph in the format `json`, with the metadata, is read as the same
graph, whether it is compact or pretty, and so the graph that was read has the
same text again.  This needs the numbers of the graph to fit their fields and
its places to be whole.
-/

namespace Workflows.Graph

def fullJson (pretty : Bool) : ExportOptions := ⟨.json, true, pretty⟩

theorem parse?_exportText {g : Graph} (hg : g.Fits) (hwhole : g.WholePlaces)
    (pretty : Bool) :
    Json.parse? (g.exportText (fullJson pretty)) = some g.toJson := by
  have h := Graph.readAs hg hwhole
  cases pretty with
  | false => exact h.parse?_compact
  | true => exact h.parse?_pretty

theorem readGraph_exportText {g : Graph} (hg : g.Fits) (hwhole : g.WholePlaces)
    (pretty : Bool) :
    Query.readGraph (g.exportText (fullJson pretty)) = .ok g := by
  rw [Query.readGraph, parse?_exportText hg hwhole, Option.bind_some,
    ofJson?_toJson hg]

/-- The exported text is read as the graph itself, which is exported as the same
text. -/
theorem exportText_read_back {g : Graph} (hg : g.Fits) (hwhole : g.WholePlaces)
    (pretty : Bool) :
    ∃ back, Query.readGraph (g.exportText (fullJson pretty)) = .ok back ∧
    back = g ∧
      back.exportText (fullJson pretty) = g.exportText (fullJson pretty) :=
  ⟨g, readGraph_exportText hg hwhole pretty, rfl, rfl⟩

/-- A graph with every optional field, both signs of zero and the largest place,
and texts with quotation marks, control characters and characters beyond the
basic plane. -/
def fullSample : Graph where
  id := "graph-\x01\x1f"
  specId := "a \x22b\x22\n"
  name := "\\ \x08\x0c\x7f 𝄞"
  nodes := [
    { id := "a", kind := .condition, name := "A",
      description := some "", path := some "/\t"
      validated := true
      issues := [⟨"C", "m", .info, some "p"⟩, ⟨"", "\r", .error, none⟩]
      metadata := {
        position := some ⟨.whole true 0, .whole true (2 ^ 40 - 1)⟩
        category := some "c", complexity := some (2 ^ 32 - 1)
        executionTime := some (2 ^ 64 - 1), inputs := ["x"], outputs :=
          ["", "é"] } },
    (Node.bare "b" .finish "null").placed (.whole false 0) (.whole false 200)]
  edges := [
    { Edge.bare "e" "a" "b" .dataFlow with
      label := some "l", condition := some "{}", pathResolved := some false
      metadata := ⟨true, false⟩ }]
  metadata := ⟨7, 2 ^ 64 - 1, 0, .warning, some "now", [[], ["a", "a"]]⟩

theorem exportText_read_back_fullSample :
    fullSample.Fits ∧ fullSample.WholePlaces ∧
      (∃ back, Query.readGraph (fullSample.exportText (fullJson false)) =
        .ok back ∧
        back = fullSample ∧
        back.exportText (fullJson false) =
          fullSample.exportText (fullJson false)) ∧
      ∃ back, Query.readGraph (fullSample.exportText (fullJson true)) =
        .ok back ∧
        back = fullSample ∧
        back.exportText (fullJson true) =
          fullSample.exportText (fullJson true) := by
  have hfits : fullSample.Fits := by decide +kernel
  have hwhole : fullSample.WholePlaces := by decide +kernel
  exact ⟨hfits, hwhole, exportText_read_back hfits hwhole false,
    exportText_read_back hfits hwhole true⟩

theorem exportText_exportText {g : Graph} (hg : g.Fits) (hwhole : g.WholePlaces)
    {pretty : Bool} {options : String}
    (ho : Query.readOptions options = .ok (fullJson pretty)) :
    Query.exportText (g.exportText (fullJson pretty)) options =
      .ok (g.exportText (fullJson pretty)) := by
  rw [Query.exportText, readGraph_exportText hg hwhole, ho]
  rfl

theorem readGraph_exportText_ofWorkflow {w : Workflow}
    (hsteps : w.steps.length < 2 ^ 32) (hdependencies : w.dependencies.length <
      2 ^ 32) (specId : String) (pretty : Bool) :
    Query.readGraph ((ofWorkflow w specId).exportText (fullJson pretty)) =
      .ok (ofWorkflow w specId) :=
  readGraph_exportText (fits_ofWorkflow hsteps hdependencies specId)
    (wholePlaces_ofWorkflow hsteps hdependencies specId) pretty

end Workflows.Graph
