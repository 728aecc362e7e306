import Workflows.Proofs.Graph.Codec
import Workflows.Proofs.Graph.Likeness
import Workflows.Proofs.Workflow.Order

/-!
# Workflows are read back from their JSON

A workflow is read back from its JSON as it was, but for one thing: conditions
that are an explicit null become absent.  That is lost once only, and a graph
never showed it.
-/

namespace Workflows

open Json

/-! ## Explicit nulls -/

def Json.unlessNull : Option Json → Option Json
  | some .null => none
  | given => given

def Step.withoutNull (s : Step) : Step :=
  { s with conditions := unlessNull s.conditions }

def Workflow.withoutNulls (w : Workflow) : Workflow :=
  { w with steps := w.steps.map Step.withoutNull }

/-! ## What reading gives -/

theorem optionalField_canonical {given : Option Json}
    (h : ∀ value ∈ given, value.InOrder) :
    optionalField (fun value => some value.canonical) given =
      some (unlessNull given) := by
  cases given with
  | none => rfl
  | some value =>
      have hvalue := InOrder.canonical_eq value (h value rfl)
      cases value <;> simp [optionalField, unlessNull, hvalue]

theorem defaultField_members {members : List (String × Json)}
    (h : MembersInOrder members) :
    defaultField [] asMembers? (some (.obj members)) = some members := by
  rw [defaultField, asMembers?, MembersInOrder.canonicalMembers_eq members h]

theorem DependencyKind.ofJson?_toJson (k : DependencyKind) :
    ofJson? k.toJson = some k := by
  cases k <;> rfl

theorem Dependency.ofJson?_toJson (d : Dependency) :
    ofJson? d.toJson = some d := by
  have h : fields? ["type", "name", "path", "required"] d.toJson =
      some [some d.kind.toJson, some (.str d.name), d.path.map .str,
        some (.bool d.required)] :=
    fields?_record rfl (by decide)
  simp [ofJson?, h, requiredField, asString?, asBool?,
    DependencyKind.ofJson?_toJson, optionalField_str]

theorem Successors.ofJson?_toJson (next : Successors) :
    ofJson? next.toJson = some next := by
  cases next with
  | one target => rfl
  | many targets =>
      have h := asStrings?_strings targets
      rw [strings] at h
      simp [toJson, strings, ofJson?, h]

theorem Step.ofJson?_toJson {s : Step} (hs : s.InOrder) :
    ofJson? s.toJson = some s.withoutNull := by
  have h : fields? ["id", "name", "description", "type", "action", "agent",
      "workflow", "resources", "conditions", "next", "metadata"] s.toJson =
        some [some (.str s.id), some (.str s.name), s.description.map .str,
          some (.str s.kind), s.action.map .str, s.agent.map .str,
          s.workflow.map .str, s.resources.map strings, s.conditions,
          s.next.map Successors.toJson, some (.obj s.metadata)] :=
    fields?_record rfl (by decide)
  have hresources : optionalField asStrings? (s.resources.map strings) =
      some s.resources :=
    optionalField_encode (fun texts _ => asStrings?_strings texts) nofun
  have hnext : optionalField Successors.ofJson? (s.next.map Successors.toJson) =
      some s.next :=
    optionalField_encode (fun next _ => next.ofJson?_toJson) fun next => by
      cases next <;> nofun
  simp [ofJson?, h, requiredField, asString?, optionalField_str, hresources,
    hnext, optionalField_canonical hs.conditions,
    defaultField_members hs.metadata, withoutNull]

theorem Workflow.ofJson?_toJson {w : Workflow} (hw : w.InOrder) :
    ofJson? w.toJson = some w.withoutNulls := by
  have h : fields? ["name", "description", "version", "author", "steps",
      "dependencies", "metadata"] w.toJson =
        some [some (.str w.name), w.description.map .str, w.version.map .str,
          w.author.map .str, some (.arr (w.steps.map Step.toJson)),
          some (.arr (w.dependencies.map Dependency.toJson)),
          some (.obj w.metadata)] :=
    fields?_record rfl (by decide)
  have hsteps : asList? Step.ofJson? (.arr (w.steps.map Step.toJson)) =
      some (w.steps.map Step.withoutNull) :=
    asList?_encode_map fun s hs => s.ofJson?_toJson (hw.steps s hs)
  have hdependencies :
      asList? Dependency.ofJson? (.arr (w.dependencies.map Dependency.toJson)) =
      some w.dependencies :=
    asList?_encode fun d _ => d.ofJson?_toJson
  simp [ofJson?, h, requiredField, asString?, optionalField_str, hsteps,
    hdependencies, defaultField_members hw.metadata, withoutNulls]

/-! ## A second time -/

theorem Json.unlessNull_unlessNull (given : Option Json) :
    unlessNull (unlessNull given) = unlessNull given := by
  rcases given with _ | (_ | _) <;> rfl

theorem Step.withoutNull_withoutNull (s : Step) :
    s.withoutNull.withoutNull = s.withoutNull := by
  simp [withoutNull, unlessNull_unlessNull]

theorem Workflow.withoutNulls_withoutNulls (w : Workflow) :
    w.withoutNulls.withoutNulls = w.withoutNulls := by
  simp [withoutNulls, Step.withoutNull_withoutNull]

/-! ## Graphs -/

theorem Step.withoutNull_alike (s : Step) : s.withoutNull.Alike s where
  id_eq := rfl
  name_eq := rfl
  description_eq := rfl
  kind_eq := rfl
  agent_eq := rfl
  workflow_eq := rfl
  resources_eq := rfl
  next_eq := rfl
  condition_eq := by
    rw [withoutNull]
    rcases s.conditions with _ | (_ | _) <;> rfl
  count_eq := fun _ _ => rfl

theorem Workflow.withoutNulls_alike (w : Workflow) :
    w.withoutNulls.Alike w where
  name_eq := rfl
  steps := List.forall₂_map_left_iff.mpr
    (List.forall₂_same.mpr fun s _ => s.withoutNull_alike)
  dependencies_eq := rfl

/-- Reading back leaves out the conditions that are an explicit null and changes
nothing else.  A second time nothing is left out, and the graph is the same as
before. -/
theorem Workflow.read_back {w : Workflow} (hw : w.InOrder) :
    ofJson? w.toJson = some w.withoutNulls ∧
    ofJson? w.withoutNulls.toJson = some w.withoutNulls ∧
    ∀ specId, Graph.ofWorkflow w.withoutNulls specId =
      Graph.ofWorkflow w specId := by
  have honce := ofJson?_toJson hw
  have htwice := ofJson?_toJson (inOrder_of_ofJson? honce)
  rw [withoutNulls_withoutNulls] at htwice
  exact ⟨honce, htwice, Graph.ofWorkflow_of_alike w.withoutNulls_alike⟩

def nullConditions : Workflow where
  name := "w"
  description := none
  version := some ""
  author := none
  steps := [
    { Step.ofName "step-1" "a" with
      conditions := some .null
      resources := some []
      next := some (.many ["step-2"])
      metadata := [("timeout", .int 3)] },
    { Step.ofName "step-2" "b" with
      conditions :=
        some (.obj [("all", .arr [.null]), ("any", .real (.zero true))])
      next := some (.one "step-1") }]
  dependencies :=
    [.ofName .agent "x", (Dependency.ofName .agent "x").withPath "x.md"]
  metadata := [("a", .obj [("n", .null)]), ("b", .null)]

theorem Workflow.read_back_nullConditions :
    nullConditions.InOrder ∧
    nullConditions.withoutNulls.steps.map (·.conditions.isSome) =
      [false, true] ∧
    ofJson? nullConditions.toJson = some nullConditions.withoutNulls ∧
    ofJson? nullConditions.withoutNulls.toJson =
      some nullConditions.withoutNulls ∧
    Graph.ofWorkflow nullConditions.withoutNulls "spec" =
      Graph.ofWorkflow nullConditions "spec" := by
  have hordered : nullConditions.InOrder := by decide
  obtain ⟨honce, htwice, hgraph⟩ := read_back hordered
  exact ⟨hordered, rfl, honce, htwice, hgraph "spec"⟩

end Workflows
