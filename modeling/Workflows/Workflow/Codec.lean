import Workflows.Json.Decode
import Workflows.Workflow.Basic

/-!
Workflows as JSON.  Absent fields are left out.  Conditions that are an explicit
null are written and read back as absent.
-/

namespace Workflows

open Json

def DependencyKind.toJson (k : DependencyKind) : Json := .str k.name

def DependencyKind.ofJson? (j : Json) : Option DependencyKind :=
  match asName? j with
  | some "agent" => some .agent
  | some "workflow" => some .workflow
  | some "resource" => some .resource
  | _ => none

def Dependency.toJson (d : Dependency) : Json :=
  record [("type", some d.kind.toJson), ("name", some (.str d.name)),
    ("path", d.path.map .str), ("required", some (.bool d.required))]

def Dependency.ofJson? (j : Json) : Option Dependency := do
  match ← fields? ["type", "name", "path", "required"] j with
  | [kind, name, path, isRequired] =>
      return {
        kind := ← requiredField DependencyKind.ofJson? kind
        name := ← requiredField asString? name
        path := ← optionalField asString? path
        required := ← requiredField asBool? isRequired }
  | _ => none

def strings (texts : List String) : Json := .arr (texts.map .str)

def asStrings? : Json → Option (List String) := asList? asString?

def Successors.toJson : Successors → Json
  | one target => .str target
  | many targets => strings targets

def Successors.ofJson? (j : Json) : Option Successors :=
  match j with
  | .str target => some (.one target)
  | _ => (asStrings? j).map .many

def Step.toJson (s : Step) : Json :=
  record [("id", some (.str s.id)), ("name", some (.str s.name)),
    ("description", s.description.map .str), ("type", some (.str s.kind)),
    ("action", s.action.map .str), ("agent", s.agent.map .str),
    ("workflow", s.workflow.map .str), ("resources", s.resources.map strings),
    ("conditions", s.conditions), ("next", s.next.map Successors.toJson),
    ("metadata", some (.obj s.metadata))]

def Step.ofJson? (j : Json) : Option Step := do
  match ← fields? ["id", "name", "description", "type", "action", "agent",
      "workflow", "resources", "conditions", "next", "metadata"] j with
  | [id, name, description, kind, action, agent, workflow, resources,
      conditions, next, metadata] =>
      return {
        id := ← requiredField asString? id
        name := ← requiredField asString? name
        description := ← optionalField asString? description
        kind := ← requiredField asString? kind
        action := ← optionalField asString? action
        agent := ← optionalField asString? agent
        workflow := ← optionalField asString? workflow
        resources := ← optionalField asStrings? resources
        conditions := ← optionalField (fun value => some value.canonical)
          conditions
        next := ← optionalField Successors.ofJson? next
        metadata := ← defaultField [] asMembers? metadata }
  | _ => none

def Workflow.toJson (w : Workflow) : Json :=
  record [("name", some (.str w.name)), ("description", w.description.map .str),
    ("version", w.version.map .str), ("author", w.author.map .str),
    ("steps", some (.arr (w.steps.map Step.toJson))),
    ("dependencies", some (.arr (w.dependencies.map Dependency.toJson))),
    ("metadata", some (.obj w.metadata))]

def Workflow.ofJson? (j : Json) : Option Workflow := do
  match ← fields? ["name", "description", "version", "author", "steps",
      "dependencies", "metadata"] j with
  | [name, description, version, author, steps, dependencies, metadata] =>
      return {
        name := ← requiredField asString? name
        description := ← optionalField asString? description
        version := ← optionalField asString? version
        author := ← optionalField asString? author
        steps := ← requiredField (asList? Step.ofJson?) steps
        dependencies := ← requiredField (asList? Dependency.ofJson?)
          dependencies
        metadata := ← defaultField [] asMembers? metadata }
  | _ => none

end Workflows
