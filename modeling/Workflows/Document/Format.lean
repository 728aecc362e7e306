import Workflows.Document.FrontMatter
import Workflows.Document.Mapping
import Workflows.Yaml.Value

/-!
Documents in two formats: Markdown, which is prose after optional front matter,
and a structured document, which is one mapping.
-/

namespace Workflows

inductive DocumentFormat where
  | markdown
  | structured
  deriving DecidableEq, Repr

namespace DocumentFormat

def name : DocumentFormat → String
  | markdown => "markdown"
  | structured => "structured"

def read (s : String) : Except UnknownName DocumentFormat :=
  let name := lowered (Text.trimmed s)
  if name = "markdown" ∨ name = "md" then .ok .markdown
  else if name = "structured" ∨ name = "yaml" ∨
    name = "yml" ∨ name = "json" then
    .ok .structured
  else .error ⟨"document format", name⟩

end DocumentFormat

namespace Document

open Text

def frontMapping (front : Option (List Char)) :
    Except DocumentError (List (String × Json)) :=
  match front with
  | none => .ok []
  | some text =>
      if (trim text).isEmpty then .ok []
      else
        match Yaml.read? text with
        | none => .error .frontMatter
        | some (.obj fields) => .ok fields
        | some .null => .ok []
        | some _ => .error .notAMapping

def readMarkdown (text : List Char) : Except DocumentError Workflow := do
  let parts ← split text
  let fields ← frontMapping parts.front
  return workflowOf fields (some parts.body)

def readStructured (text : List Char) : Except DocumentError Workflow :=
  match Yaml.read? text with
  | none => .error .structured
  | some (.obj fields) => .ok (workflowOf fields none)
  | some _ => .error .notAMapping

/-- A mapping with at least one field that has a meaning of its own; prose with
a colon can be a mapping too. -/
def isStructured (text : List Char) : Bool :=
  match Yaml.read? text with
  | some (.obj fields) =>
      workflowKeys.any fun key => (Json.member? fields key).isSome
  | _ => false

def formatOf (text : List Char) : DocumentFormat :=
  if opensFrontMatter text then .markdown
  else if isStructured text then .structured
  else .markdown

def parse (text : String) (format : Option DocumentFormat) :
    Except DocumentError Workflow :=
  match format.getD (formatOf text.toList) with
  | .markdown => readMarkdown text.toList
  | .structured => readStructured text.toList

end Document

end Workflows
