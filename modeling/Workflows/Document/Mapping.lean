import Workflows.Document.Prose
import Workflows.Json.Printer
import Workflows.Workflow.Reference

/-!
Workflows from the mapping of a document.  The names of a workflow, a step and a
dependency may be any scalars.  Steps written out in the mapping take precedence
over steps in prose; their ids are numbered, and the targets that use the
author's ids follow.
-/

namespace Workflows.Document

open Json

def untitled : String := "Untitled Workflow"

def givenId : String := "declaredId"

def workflowKeys : List String :=
  ["name", "title", "description", "version", "author", "steps", "agents",
    "workflows", "resources", "requires"]

def scalarText? : Json → Option String
  | .str s => some s
  | .int i => some (String.ofList (intText i))
  | .real x => some (String.ofList (x.text layout))
  | .bool b => some (if b then "true" else "false")
  | _ => none

def textField? (fields : List (String × Json)) (name : String) :
    Option String :=
  (member? fields name).bind scalarText?

def itemTexts (items : List Json) : List String := items.filterMap scalarText?

def stepResources? (fields : List (String × Json)) : Option (List String) :=
  match member? fields "resources" with
  | some (.arr items) => some (itemTexts items)
  | some value => (scalarText? value).map fun text => [text]
  | none => none

def successorsOf? (fields : List (String × Json)) : Option Successors :=
  match member? fields "next" with
  | some (.arr items) => some (.many (itemTexts items))
  | some value => (scalarText? value).map .one
  | none => none

/-- The fields of a step that have a meaning of their own; a title only where it
is the name. -/
def stepKeys (fields : List (String × Json)) : List String :=
  (if (textField? fields "name").isSome then ["name"] else ["name", "title"]) ++
    ["type", "resources", "next", "id", "description", "action", "agent",
      "workflow", "conditions"]

def stepMetadata (fields : List (String × Json)) : List (String × Json) :=
  let others := fields.filter fun entry => !(stepKeys fields).contains entry.1
  match member? fields "id" with
  | some id => insertMember givenId id others
  | none => others

def stepOfFields (position : Nat) (fields : List (String × Json)) : Step where
  id := stepId position
  name := (textField? fields "name" <|> textField? fields "title").getD
    ("Step " ++ toString (position + 1))
  description := textField? fields "description"
  kind := (textField? fields "type").getD "action"
  action := textField? fields "action"
  agent := textField? fields "agent"
  workflow := textField? fields "workflow"
  resources := stepResources? fields
  conditions := member? fields "conditions"
  next := successorsOf? fields
  metadata := stepMetadata fields

def stepOfEntry (position : Nat) : Json → Step
  | .obj fields => stepOfFields position fields
  | entry => Step.ofName (stepId position) ((scalarText? entry).getD "")

/-- The id of the last of the steps that was declared with the given id. -/
def renamed (steps : List Step) (target : String) : String :=
  let declares (s : Step) : Bool := textField? s.metadata givenId == some target
  ((steps.reverse.find? declares).map Step.id).getD target

/-- The steps written in a document, each target that is a declared id replaced
by the id of its step. -/
def writtenSteps (entries : List Json) : List Step :=
  let steps := entries.mapIdx stepOfEntry
  steps.map fun s =>
  { s with next := s.next.map (Successors.map (renamed steps)) }

def declared? (kind : DependencyKind) : Json → Option Dependency
  | .obj fields =>
      (textField? fields "name").map fun name =>
        { kind := kind
          name := name
          path := textField? fields "path"
          required := ((member? fields "required").bind asTruth?).getD true }
  | entry => (scalarText? entry).map (Dependency.ofName kind)
where
  asTruth? : Json → Option Bool
    | .bool b => some b
    | _ => none

def referenced? : Json → Option Dependency
  | .str reference =>
      (Reference.parse? reference).map fun (kind, name) =>
        Dependency.ofName kind name
  | _ => none

def entries (fields : List (String × Json)) (name : String) : List Json :=
  match member? fields name with
  | some (.arr items) => items
  | _ => []

def dependenciesOf (fields : List (String × Json)) : List Dependency :=
  (entries fields "agents").filterMap (declared? .agent) ++
    (entries fields "workflows").filterMap (declared? .workflow) ++
    (entries fields "resources").filterMap (declared? .resource) ++
    (entries fields "requires").filterMap referenced?

def workflowOf (fields : List (String × Json)) (prose : Option (List Char)) :
    Workflow where
  name := (textField? fields "name" <|> textField? fields "title" <|>
    (prose.bind heading?).map String.ofList).getD untitled
  description := textField? fields "description"
  version := textField? fields "version"
  author := textField? fields "author"
  steps :=
    let explicit := writtenSteps (entries fields "steps")
    if explicit.isEmpty then (prose.map proseSteps).getD [] else explicit
  dependencies := dependenciesOf fields
  metadata := fields.filter fun entry => !workflowKeys.contains entry.1

end Workflows.Document
