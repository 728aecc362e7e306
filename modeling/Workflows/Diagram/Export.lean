import Workflows.Diagram.Dot
import Workflows.Diagram.Mermaid
import Workflows.Diagram.Svg
import Workflows.Graph.Codec
import Workflows.Json.Printer
import Workflows.Workflow.Reference

/-!
The text of a graph in four formats.
-/

namespace Workflows

inductive ExportFormat where
  | json
  | dot
  | mermaid
  | svg
  deriving DecidableEq, Repr

namespace ExportFormat

def name : ExportFormat → String
  | json => "json"
  | dot => "dot"
  | mermaid => "mermaid"
  | svg => "svg"

def all : List ExportFormat := [json, dot, mermaid, svg]

/-- Formats are named without regard to case; two of them have a second name. -/
def read (s : String) : Except UnknownName ExportFormat :=
  let name := lowered s
  if name = "json" then .ok json
  else if name = "dot" ∨ name = "graphviz" then .ok dot
  else if name = "mermaid" ∨ name = "mmd" then .ok mermaid
  else if name = "svg" then .ok svg
  else .error ⟨"export format", name⟩

def toJson (f : ExportFormat) : Json := .str f.name

def ofJson? : Json → Option ExportFormat := named? all name

end ExportFormat

structure ExportOptions where
  format : ExportFormat
  includeMetadata : Bool
  pretty : Bool
  deriving DecidableEq, Repr

namespace ExportOptions

open Json

def ofFormat (format : ExportFormat) : ExportOptions := ⟨format, true, false⟩

def standard : ExportOptions := ofFormat .json

def toJson (o : ExportOptions) : Json :=
  .obj [("format", o.format.toJson),
    ("includeMetadata", .bool o.includeMetadata), ("pretty", .bool o.pretty)]

def ofJson? (j : Json) : Option ExportOptions := do
  match ← fields? ["format", "includeMetadata", "pretty"] j with
  | [format, includeMetadata, pretty] =>
      return {
        format := ← defaultField standard.format ExportFormat.ofJson? format
        includeMetadata := ← defaultField standard.includeMetadata asBool?
          includeMetadata
        pretty := ← defaultField standard.pretty asBool? pretty }
  | _ => none

end ExportOptions

namespace Graph

def withoutMember : Json → Json
  | .obj members => .obj (Json.removeMember members "metadata")
  | value => value

def itemsWithout : Json → Json
  | .arr items => .arr (items.map withoutMember)
  | value => value

/-- The JSON of a graph without the metadata of the graph, its nodes and its
edges. -/
def withoutMetadata (j : Json) : Json :=
  match withoutMember j with
  | .obj members => .obj (members.map fun (name, value) =>
      (name, if name = "nodes" ∨ name = "edges" then itemsWithout value
        else value))
  | value => value

/-- The fields are in the order of their declaration or, without metadata,
sorted by name. -/
def exportJson (g : Graph) (includeMetadata pretty : Bool) : String :=
  let value :=
    if includeMetadata then g.toJson else withoutMetadata g.toJson.canonical
  if pretty then value.pretty else value.compact

def exportText (g : Graph) (o : ExportOptions) : String :=
  match o.format with
  | .json => g.exportJson o.includeMetadata o.pretty
  | .dot => (Dot.write g o.includeMetadata).text
  | .mermaid => (Mermaid.write g o.includeMetadata).text
  | .svg => (Svg.write g).text

end Graph

end Workflows
