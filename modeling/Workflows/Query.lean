import Workflows.Analysis.Structure
import Workflows.Diagram.Export
import Workflows.Document.Format
import Workflows.Graph.Build
import Workflows.Json.Reader

/-!
Queries on plain text, which need no files.  Each answers with a value or with
the cause of its failure.
-/

namespace Workflows

inductive QueryError where
  | unknownFormat (cause : UnknownName)
  | graph
  | exportOptions
  | document (cause : DocumentError)
  deriving DecidableEq, Repr

namespace QueryError

def code : QueryError → String
  | document cause => cause.code
  | _ => "I001"

def phase : QueryError → String
  | document _ => Phase.parse.name
  | _ => "Input"

def message : QueryError → String
  | unknownFormat cause => cause.message
  | graph => "Failed to parse graph JSON"
  | exportOptions => "Failed to parse export options"
  | document cause => cause.message

def toJson (e : QueryError) : Json :=
  .obj [("code", .str e.code), ("phase", .str e.phase),
    ("message", .str e.message)]

end QueryError

abbrev Outcome (α : Type) := Except QueryError α

namespace Query

def outcomeToJson {α : Type} (encode : α → Json) : Outcome α → Json
  | .ok value => .obj [("status", .str "success"), ("value", encode value)]
  | .error cause => .obj [("status", .str "error"), ("error", cause.toJson)]

def parse (text : String) (format : Option String) : Outcome Workflow := do
  let format ← match format with
    | some name => ((DocumentFormat.read name).mapError .unknownFormat).map some
    | none => pure none
  (Document.parse text format).mapError .document

def build (text specId : String) : Outcome Graph := do
  let w ← (Document.parse text none).mapError .document
  return Graph.ofWorkflow w specId

def readGraph (json : String) : Outcome Graph :=
  match (Json.parse? json).bind Graph.ofJson? with
  | some g => .ok g
  | none => .error .graph

def readOptions (json : String) : Outcome ExportOptions :=
  if Text.allBlank json.toList then .ok .standard
  else
    match (Json.parse? json).bind ExportOptions.ofJson? with
    | some o => .ok o
    | none => .error .exportOptions

def structureOf (json : String) : Outcome GraphStructure := do
  let g ← readGraph json
  return GraphStructure.ofGraph g

def exportText (json options : String) : Outcome String := do
  let g ← readGraph json
  let o ← readOptions options
  return g.exportText o

end Query

end Workflows
