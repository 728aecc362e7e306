import Workflows.Graph.Codec
import Workflows.Resolution.Basic

/-!
Resolved dependencies, conflicts and decisions as JSON.
-/

namespace Workflows

open Json

def Presence.toJson (p : Presence) : Json :=
  record [("exists", some (.bool p.exist)),
    ("accessible", some (.bool p.accessible)), ("version", p.version.map .str)]

def Presence.ofJson? (j : Json) : Option Presence := do
  match ← fields? ["exists", "accessible", "version"] j with
  | [exist, accessible, version] =>
      return ⟨← requiredField asBool? exist, ← requiredField asBool? accessible,
        ← optionalField asString? version⟩
  | _ => none

def ResolvedDependency.toJson (d : ResolvedDependency) : Json :=
  record [("id", some (.str d.id)), ("type", some d.kind.toJson),
    ("name", some (.str d.name)),
    ("logicalReference", some (.str d.logicalReference)),
    ("physicalPath", some (.str d.physicalPath)),
    ("resolved", some (.bool d.resolved)), ("error", d.error.map .str),
    ("errorCode", d.errorCode.map .str), ("metadata", some d.presence.toJson)]

def ResolvedDependency.ofJson? (j : Json) : Option ResolvedDependency := do
  match ← fields? ["id", "type", "name", "logicalReference", "physicalPath",
      "resolved", "error", "errorCode", "metadata"] j with
  | [id, kind, name, logicalReference, physicalPath, resolved,
      error, errorCode, metadata] =>
      return {
        id := ← requiredField asString? id
        kind := ← requiredField DependencyKind.ofJson? kind
        name := ← requiredField asString? name
        logicalReference := ← requiredField asString? logicalReference
        physicalPath := ← requiredField asString? physicalPath
        resolved := ← requiredField asBool? resolved
        error := ← optionalField asString? error
        errorCode := ← optionalField asString? errorCode
        presence := ← requiredField Presence.ofJson? metadata }
  | _ => none

def resolvedToJson (ds : List ResolvedDependency) : Json :=
  .arr (ds.map ResolvedDependency.toJson)

def ConflictKind.toJson (k : ConflictKind) : Json := .str k.name

def ConflictKind.ofJson? : Json → Option ConflictKind := named? all name

def Conflict.toJson (c : Conflict) : Json :=
  .obj [("dependencyId", .str c.dependencyId), ("type", c.kind.toJson),
    ("code", .str c.code), ("message", .str c.message),
    ("details", strings c.details)]

def Conflict.ofJson? (j : Json) : Option Conflict := do
  match ← fields? ["dependencyId", "type", "code", "message", "details"] j with
  | [dependencyId, kind, code, message, details] =>
      return {
        dependencyId := ← requiredField asString? dependencyId
        kind := ← requiredField ConflictKind.ofJson? kind
        code := ← requiredField asString? code
        message := ← requiredField asString? message
        details := ← requiredField asStrings? details }
  | _ => none

def conflictsToJson (cs : List Conflict) : Json := .arr (cs.map Conflict.toJson)

def DecisionKind.ofJson? : Json → Option DecisionKind := named? all name

def Decision.ofJson? (j : Json) : Option Decision := do
  match ← fields? ["dependencyId", "resolution", "newVersion",
    "replacementPath"] j with
  | [dependencyId, action, newVersion, replacementPath] =>
      return {
        dependencyId := ← requiredField asString? dependencyId
        action := ← requiredField DecisionKind.ofJson? action
        newVersion := ← optionalField asString? newVersion
        replacementPath := ← optionalField asString? replacementPath }
  | _ => none

def ResolutionResult.toJson (r : ResolutionResult) : Json :=
  .obj [("success", .bool r.success),
    ("dependencies", resolvedToJson r.dependencies),
    ("conflicts", conflictsToJson r.conflicts),
    ("missingDependencies", resolvedToJson r.missing),
    ("circularDependencies", cyclesToJson r.cycles),
    ("nestedDependencies", .obj (r.nested.map fun (key, ds) =>
      (key, resolvedToJson ds))),
      ("recommendations", strings r.recommendations)]

end Workflows
