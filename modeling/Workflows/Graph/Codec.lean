import Workflows.Graph.Basic
import Workflows.Workflow.Codec

/-!
Graphs as JSON.  Absent fields and empty input and output lists are left out.
-/

namespace Workflows

open Json

def named? {α : Type} (all : List α) (name : α → String) (j : Json) :
    Option α :=
  (asName? j).bind fun s => all.find? fun a => name a == s

def count (n : Nat) : Json := .int n

def stringsUnlessEmpty (texts : List String) : Option Json :=
  if texts.isEmpty then none else some (strings texts)

def Severity.toJson (s : Severity) : Json := .str s.name

def Severity.ofJson? : Json → Option Severity := named? all name

def ValidationStatus.toJson (s : ValidationStatus) : Json := .str s.name

def ValidationStatus.ofJson? : Json → Option ValidationStatus := named? all name

def NodeKind.toJson (k : NodeKind) : Json := .str k.name

def NodeKind.ofJson? : Json → Option NodeKind := named? all name

def EdgeKind.toJson (k : EdgeKind) : Json := .str k.name

def EdgeKind.ofJson? : Json → Option EdgeKind := named? all name

def Issue.toJson (i : Issue) : Json :=
  record [("code", some (.str i.code)), ("message", some (.str i.message)),
    ("severity", some i.severity.toJson), ("path", i.path.map .str)]

def Issue.ofJson? (j : Json) : Option Issue := do
  match ← fields? ["code", "message", "severity", "path"] j with
  | [code, message, severity, path] =>
      return {
        code := ← requiredField asString? code
        message := ← requiredField asString? message
        severity := ← requiredField Severity.ofJson? severity
        path := ← optionalField asString? path }
  | _ => none

def issuesToJson (issues : List Issue) : Json := .arr (issues.map Issue.toJson)

def asIssues? : Json → Option (List Issue) := asList? Issue.ofJson?

def Position.toJson (p : Position) : Json :=
  .obj [("x", .real p.x), ("y", .real p.y)]

def Position.ofJson? (j : Json) : Option Position := do
  match ← fields? ["x", "y"] j with
  | [x, y] => return ⟨← requiredField asReal? x, ← requiredField asReal? y⟩
  | _ => none

def NodeMetadata.toJson (m : NodeMetadata) : Json :=
  record [("position", m.position.map Position.toJson),
    ("category", m.category.map .str), ("complexity", m.complexity.map count),
    ("executionTime", m.executionTime.map count),
    ("inputs", stringsUnlessEmpty m.inputs),
    ("outputs", stringsUnlessEmpty m.outputs)]

def NodeMetadata.ofJson? (j : Json) : Option NodeMetadata := do
  match ← fields? ["position", "category", "complexity", "executionTime",
      "inputs", "outputs"] j with
  | [position, category, complexity, executionTime, inputs, outputs] =>
      return {
        position := ← optionalField Position.ofJson? position
        category := ← optionalField asString? category
        complexity := ← optionalField asScore? complexity
        executionTime := ← optionalField asCount? executionTime
        inputs := ← defaultField [] asStrings? inputs
        outputs := ← defaultField [] asStrings? outputs }
  | _ => none

def Node.toJson (n : Node) : Json :=
  record [("id", some (.str n.id)), ("type", some n.kind.toJson),
    ("name", some (.str n.name)), ("description", n.description.map .str),
    ("ccPath", n.path.map .str), ("validated", some (.bool n.validated)),
    ("validationErrors", some (issuesToJson n.issues)),
    ("metadata", some n.metadata.toJson)]

def Node.ofJson? (j : Json) : Option Node := do
  match ← fields? ["id", "type", "name", "description", "ccPath", "validated",
      "validationErrors", "metadata"] j with
  | [id, kind, name, description, path, validated, issues, metadata] =>
      return {
        id := ← requiredField asString? id
        kind := ← requiredField NodeKind.ofJson? kind
        name := ← requiredField asString? name
        description := ← optionalField asString? description
        path := ← optionalField asString? path
        validated := ← requiredField asBool? validated
        issues := ← defaultField [] asIssues? issues
        metadata := ← defaultField .empty NodeMetadata.ofJson? metadata }
  | _ => none

def EdgeMetadata.toJson (m : EdgeMetadata) : Json :=
  .obj [("async", .bool m.isAsync), ("parallel", .bool m.isParallel)]

def EdgeMetadata.ofJson? (j : Json) : Option EdgeMetadata := do
  match ← fields? ["async", "parallel"] j with
  | [isAsync, isParallel] =>
      return ⟨← requiredField asBool? isAsync, ← requiredField asBool?
        isParallel⟩
  | _ => none

def Edge.toJson (e : Edge) : Json :=
  record [("id", some (.str e.id)), ("source", some (.str e.source)),
    ("target", some (.str e.target)), ("type", some e.kind.toJson),
    ("label", e.label.map .str), ("condition", e.condition.map .str),
    ("validated", some (.bool e.validated)),
    ("ccPathResolved", e.pathResolved.map .bool),
    ("metadata", some e.metadata.toJson)]

def Edge.ofJson? (j : Json) : Option Edge := do
  match ← fields? ["id", "source", "target", "type", "label", "condition",
      "validated", "ccPathResolved", "metadata"] j with
  | [id, source, target, kind, label, condition,
      validated, pathResolved, metadata] =>
      return {
        id := ← requiredField asString? id
        source := ← requiredField asString? source
        target := ← requiredField asString? target
        kind := ← requiredField EdgeKind.ofJson? kind
        label := ← optionalField asString? label
        condition := ← optionalField asString? condition
        validated := ← requiredField asBool? validated
        pathResolved := ← optionalField asBool? pathResolved
        metadata := ← defaultField .empty EdgeMetadata.ofJson? metadata }
  | _ => none

def cyclesToJson (cycles : List (List String)) : Json :=
  .arr (cycles.map strings)

def asCycles? : Json → Option (List (List String)) := asList? asStrings?

def GraphMetadata.toJson (m : GraphMetadata) : Json :=
  record [("complexity", some (count m.complexity)),
    ("totalSteps", some (count m.totalSteps)),
    ("dependencyCount", some (count m.dependencyCount)),
    ("validationStatus", some m.status.toJson),
    ("lastValidated", m.lastValidated.map .str),
    ("circularDependencies", some (cyclesToJson m.cycles))]

def GraphMetadata.ofJson? (j : Json) : Option GraphMetadata := do
  match ← fields? ["complexity", "totalSteps", "dependencyCount",
      "validationStatus", "lastValidated", "circularDependencies"] j with
  | [complexity, totalSteps, dependencyCount, status, lastValidated, cycles] =>
      return {
        complexity := ← requiredField asScore? complexity
        totalSteps := ← requiredField asCount? totalSteps
        dependencyCount := ← requiredField asCount? dependencyCount
        status := ← requiredField ValidationStatus.ofJson? status
        lastValidated := ← optionalField asString? lastValidated
        cycles := ← requiredField asCycles? cycles }
  | _ => none

def Graph.toJson (g : Graph) : Json :=
  .obj [("id", .str g.id), ("workflowSpecId", .str g.specId),
    ("name", .str g.name), ("nodes", .arr (g.nodes.map Node.toJson)),
    ("edges", .arr (g.edges.map Edge.toJson)), ("metadata", g.metadata.toJson)]

def Graph.ofJson? (j : Json) : Option Graph := do
  match ← fields? ["id", "workflowSpecId", "name", "nodes", "edges", "metadata"]
    j with
  | [id, specId, name, nodes, edges, metadata] =>
      return {
        id := ← requiredField asString? id
        specId := ← requiredField asString? specId
        name := ← requiredField asString? name
        nodes := ← requiredField (asList? Node.ofJson?) nodes
        edges := ← requiredField (asList? Edge.ofJson?) edges
        metadata := ← requiredField GraphMetadata.ofJson? metadata }
  | _ => none

end Workflows
