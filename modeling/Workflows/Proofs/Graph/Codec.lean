import Workflows.Graph.Codec
import Workflows.Proofs.Json.Readable
import Workflows.Proofs.Json.Records

/-!
# Graphs are read back from their JSON

Each record of a graph is read back from the value it is written as, and from
the text of that value.  The numbers have to fit their fields: scores have 32
binary digits and counts and times 64.  What a text holds of a floating-point
number is followed here for whole numbers; of a graph with other places, the
text is read as some value.
-/

namespace Workflows

open Json

/-! ## Graphs that fit -/

@[mk_iff]
structure NodeMetadata.Fits (m : NodeMetadata) : Prop where
  position : ∀ p ∈ m.position, p.x.Regular ∧ p.y.Regular
  complexity : ∀ n ∈ m.complexity, n < 2 ^ 32
  executionTime : ∀ n ∈ m.executionTime, n < 2 ^ 64

@[mk_iff]
structure GraphMetadata.Fits (m : GraphMetadata) : Prop where
  complexity : m.complexity < 2 ^ 32
  totalSteps : m.totalSteps < 2 ^ 64
  dependencyCount : m.dependencyCount < 2 ^ 64

/-- Every number of the graph is one that its field can hold. -/
@[mk_iff]
structure Graph.Fits (g : Graph) : Prop where
  nodes : ∀ n ∈ g.nodes, n.metadata.Fits
  metadata : g.metadata.Fits

/-- A place with whole coordinates below `2 ^ 40` in magnitude. -/
@[mk_iff]
structure Position.Whole (p : Position) : Prop where
  x : Binary64.WholeBelow (2 ^ 40) p.x
  y : Binary64.WholeBelow (2 ^ 40) p.y

/-- Every node that has a place has a whole one. -/
def Graph.WholePlaces (g : Graph) : Prop :=
  ∀ n ∈ g.nodes, ∀ p ∈ n.metadata.position, p.Whole

instance (m : NodeMetadata) : Decidable m.Fits := decidable_of_iff' _ m.fits_iff

instance (m : GraphMetadata) : Decidable m.Fits :=
  decidable_of_iff' _ m.fits_iff

instance (g : Graph) : Decidable g.Fits := decidable_of_iff' _ g.fits_iff

instance (p : Position) : Decidable p.Whole := decidable_of_iff' _ p.whole_iff

instance (g : Graph) : Decidable g.WholePlaces :=
  inferInstanceAs (Decidable (∀ n ∈ g.nodes, ∀ p ∈ n.metadata.position,
    p.Whole))

/-! ## Names -/

theorem Severity.ofJson?_toJson (s : Severity) : ofJson? s.toJson = some s := by
  cases s <;> rfl

theorem ValidationStatus.ofJson?_toJson (s : ValidationStatus) :
    ofJson? s.toJson = some s := by
  cases s <;> rfl

theorem NodeKind.ofJson?_toJson (k : NodeKind) : ofJson? k.toJson = some k := by
  cases k <;> rfl

theorem EdgeKind.ofJson?_toJson (k : EdgeKind) : ofJson? k.toJson = some k := by
  cases k <;> rfl

/-! ## Texts and lists of texts -/

theorem optionalField_str (o : Option String) :
    optionalField asString? (o.map .str) = some o :=
  optionalField_encode (fun _ _ => rfl) nofun

theorem asStrings?_strings (texts : List String) :
    asStrings? (strings texts) = some texts :=
  asList?_encode fun _ _ => rfl

theorem defaultField_stringsUnlessEmpty (texts : List String) :
    defaultField [] asStrings? (stringsUnlessEmpty texts) = some texts := by
  cases texts with
  | nil => rfl
  | cons text texts => exact asStrings?_strings (text :: texts)

theorem asScore?_count {n : Nat} (h : n < 2 ^ 32) :
    asScore? (count n) = some n :=
  asNat?_count h

theorem asCount?_count {n : Nat} (h : n < 2 ^ 64) :
    asCount? (count n) = some n :=
  asNat?_count h

theorem strings_readAs (texts : List String) :
    ReadAs (strings texts) (strings texts) :=
  .list fun text _ => .str text

theorem stringsUnlessEmpty_readAs (texts : List String) :
    ∀ value ∈ stringsUnlessEmpty texts, ReadAs value value := by
  intro value hvalue
  obtain ⟨-, hstrings⟩ := Option.ite_none_left_eq_some.mp hvalue
  rw [← Option.some.inj hstrings]
  exact strings_readAs texts

/-! ## Issues -/

theorem Issue.ofJson?_toJson (i : Issue) : ofJson? i.toJson = some i := by
  have h : fields? ["code", "message", "severity", "path"] i.toJson =
      some [some (.str i.code), some (.str i.message), some i.severity.toJson,
        i.path.map .str] := fields?_record rfl (by decide)
  simp [ofJson?, h, requiredField, asString?, Severity.ofJson?_toJson,
    optionalField_str]

theorem Issue.readAs (i : Issue) : ReadAs i.toJson i.toJson := by
  refine .record ?_
  simp [ReadAs.str, Severity.toJson]

theorem asIssues?_issuesToJson (issues : List Issue) :
    asIssues? (issuesToJson issues) = some issues :=
  asList?_encode fun i _ => i.ofJson?_toJson

theorem issues_readAs (issues : List Issue) :
    ReadAs (issuesToJson issues) (issuesToJson issues) :=
  .list fun i _ => i.readAs

/-! ## Nodes -/

theorem Position.toJson_eq_record (p : Position) :
    p.toJson = record [("x", some (.real p.x)), ("y", some (.real p.y))] := rfl

theorem Position.ofJson?_toJson (p : Position) : ofJson? p.toJson = some p := by
  have h : fields? ["x", "y"] p.toJson = some [some (.real p.x),
      some (.real p.y)] := by
    rw [toJson_eq_record]
    exact fields?_record rfl (by decide)
  simp [ofJson?, h, requiredField, asReal?]

theorem real_readAs {x : Binary64} (hregular : x.Regular)
    (hwhole : x.WholeBelow (2 ^ 40)) :
    ReadAs (.real x) (.real x) := by
  obtain ⟨n, hn, hx⟩ := hwhole.eq_whole hregular (by decide)
  rw [hx]
  exact .whole _ hn

theorem Position.readAs {p : Position} (hx : p.x.Regular) (hy : p.y.Regular)
    (hp : p.Whole) :
    ReadAs p.toJson p.toJson := by
  refine .members ?_
  simp [real_readAs hx hp.x, real_readAs hy hp.y]

theorem NodeMetadata.ofJson?_toJson {m : NodeMetadata} (hm : m.Fits) :
    ofJson? m.toJson = some m := by
  have h : fields? ["position", "category", "complexity", "executionTime",
      "inputs", "outputs"] m.toJson = some [m.position.map Position.toJson,
      m.category.map .str,
        m.complexity.map count, m.executionTime.map count,
        stringsUnlessEmpty m.inputs, stringsUnlessEmpty m.outputs] :=
      fields?_record rfl (by decide)
  have hposition :
      optionalField Position.ofJson? (m.position.map Position.toJson) =
      some m.position :=
    optionalField_encode (fun p _ => p.ofJson?_toJson) nofun
  have hcomplexity : optionalField asScore? (m.complexity.map count) =
      some m.complexity :=
    optionalField_encode (fun n hn => asScore?_count (hm.complexity n hn)) nofun
  have htime : optionalField asCount? (m.executionTime.map count) =
      some m.executionTime :=
    optionalField_encode (fun n hn => asCount?_count (hm.executionTime n hn))
      nofun
  simp [ofJson?, h, hposition, hcomplexity, htime, optionalField_str,
    defaultField_stringsUnlessEmpty]

theorem NodeMetadata.readAs {m : NodeMetadata} (hm : m.Fits)
    (hwhole : ∀ p ∈ m.position, p.Whole) : ReadAs m.toJson m.toJson := by
  refine .record ?_
  simp only [List.forall_mem_cons]
  refine ⟨.optional fun p hp => ?_, .optional fun s _ => .str s,
    .optional fun n hn => ?_, .optional fun n hn =>
    .ofNat (hm.executionTime n hn), stringsUnlessEmpty_readAs _,
    stringsUnlessEmpty_readAs _, fun _ h => absurd h List.not_mem_nil⟩
  · exact Position.readAs (hm.position p hp).1 (hm.position p hp).2
      (hwhole p hp)
  · have hcomplexity := hm.complexity n hn
    exact .ofNat (by omega)

theorem Node.ofJson?_toJson {n : Node} (hn : n.metadata.Fits) :
    ofJson? n.toJson = some n := by
  have h : fields? ["id", "type", "name", "description", "ccPath", "validated",
      "validationErrors", "metadata"] n.toJson =
        some [some (.str n.id), some n.kind.toJson, some (.str n.name),
          n.description.map .str, n.path.map .str, some (.bool n.validated),
          some (issuesToJson n.issues), some n.metadata.toJson] :=
        fields?_record rfl (by decide)
  simp [ofJson?, h, requiredField, defaultField, asString?, asBool?,
    optionalField_str, NodeKind.ofJson?_toJson, asIssues?_issuesToJson,
    NodeMetadata.ofJson?_toJson hn]

theorem Node.readAs {n : Node} (hn : n.metadata.Fits)
    (hwhole : ∀ p ∈ n.metadata.position, p.Whole) :
    ReadAs n.toJson n.toJson := by
  refine .record ?_
  simp [ReadAs.str, ReadAs.bool, NodeKind.toJson, issues_readAs,
    NodeMetadata.readAs hn hwhole]

/-! ## Edges -/

theorem EdgeMetadata.toJson_eq_record (m : EdgeMetadata) : m.toJson =
    record [("async", some (.bool m.isAsync)),
      ("parallel", some (.bool m.isParallel))] := rfl

theorem EdgeMetadata.ofJson?_toJson (m : EdgeMetadata) :
    ofJson? m.toJson = some m := by
  have h : fields? ["async", "parallel"] m.toJson =
      some [some (.bool m.isAsync), some (.bool m.isParallel)] := by
    rw [toJson_eq_record]
    exact fields?_record rfl (by decide)
  simp [ofJson?, h, requiredField, asBool?]

theorem EdgeMetadata.readAs (m : EdgeMetadata) : ReadAs m.toJson m.toJson := by
  refine .members ?_
  simp [ReadAs.bool]

theorem Edge.ofJson?_toJson (e : Edge) : ofJson? e.toJson = some e := by
  have h : fields? ["id", "source", "target", "type", "label", "condition",
      "validated", "ccPathResolved", "metadata"] e.toJson =
        some [some (.str e.id), some (.str e.source), some (.str e.target),
          some e.kind.toJson, e.label.map .str, e.condition.map .str,
          some (.bool e.validated), e.pathResolved.map .bool,
          some e.metadata.toJson] := fields?_record rfl (by decide)
  have hresolved : optionalField asBool? (e.pathResolved.map .bool) =
      some e.pathResolved :=
    optionalField_encode (fun _ _ => rfl) nofun
  simp [ofJson?, h, hresolved, requiredField, defaultField, asString?, asBool?,
    optionalField_str, EdgeKind.ofJson?_toJson, EdgeMetadata.ofJson?_toJson]

theorem Edge.readAs (e : Edge) : ReadAs e.toJson e.toJson := by
  refine .record ?_
  cases hresolved : e.pathResolved <;>
    simp [ReadAs.str, ReadAs.bool, EdgeKind.toJson, EdgeMetadata.readAs]

/-! ## Graphs -/

theorem asCycles?_cyclesToJson (cycles : List (List String)) :
    asCycles? (cyclesToJson cycles) = some cycles :=
  asList?_encode fun cycle _ => asStrings?_strings cycle

theorem cycles_readAs (cycles : List (List String)) :
    ReadAs (cyclesToJson cycles) (cyclesToJson cycles) :=
  .list fun cycle _ => strings_readAs cycle

theorem GraphMetadata.ofJson?_of_fields {j : Json} {m : GraphMetadata}
    {complexity totalSteps dependencyCount status lastValidated cycles :
      Option Json}
    (h : fields? ["complexity", "totalSteps", "dependencyCount",
      "validationStatus", "lastValidated", "circularDependencies"] j =
        some [complexity, totalSteps, dependencyCount, status, lastValidated,
          cycles])
    (hcomplexity : requiredField asScore? complexity = some m.complexity)
    (hsteps : requiredField asCount? totalSteps = some m.totalSteps)
    (hdependencies : requiredField asCount? dependencyCount =
      some m.dependencyCount)
    (hstatus : requiredField ValidationStatus.ofJson? status = some m.status)
    (hvalidated : optionalField asString? lastValidated = some m.lastValidated)
    (hcycles : requiredField asCycles? cycles = some m.cycles) :
    ofJson? j = some m := by
  simp [ofJson?, h, hcomplexity, hsteps, hdependencies, hstatus, hvalidated,
    hcycles]

theorem GraphMetadata.ofJson?_toJson {m : GraphMetadata} (hm : m.Fits) :
    ofJson? m.toJson = some m :=
  ofJson?_of_fields (fields?_record rfl (by decide))
    (requiredField_encode (asScore?_count hm.complexity))
    (requiredField_encode (asCount?_count hm.totalSteps))
    (requiredField_encode (asCount?_count hm.dependencyCount))
    (requiredField_encode m.status.ofJson?_toJson)
    (optionalField_str m.lastValidated)
    (requiredField_encode (asCycles?_cyclesToJson m.cycles))

theorem GraphMetadata.readAs {m : GraphMetadata} (hm : m.Fits) :
    ReadAs m.toJson m.toJson := by
  have hcomplexity := hm.complexity
  refine .record ?_
  simp [ReadAs.str, count, ReadAs.ofNat (show m.complexity < 2 ^ 64 by omega),
    ReadAs.ofNat hm.totalSteps, ReadAs.ofNat hm.dependencyCount,
    ValidationStatus.toJson, cycles_readAs]

theorem Graph.toJson_eq_record (g : Graph) : g.toJson =
    record [("id", some (.str g.id)), ("workflowSpecId", some (.str g.specId)),
      ("name", some (.str g.name)),
      ("nodes", some (.arr (g.nodes.map Node.toJson))),
      ("edges", some (.arr (g.edges.map Edge.toJson))),
      ("metadata", some g.metadata.toJson)] :=
  rfl

theorem Graph.ofJson?_toJson {g : Graph} (hg : g.Fits) :
    ofJson? g.toJson = some g := by
  have h : fields? ["id", "workflowSpecId", "name", "nodes",
      "edges", "metadata"] g.toJson =
      some [some (.str g.id), some (.str g.specId), some (.str g.name),
        some (.arr (g.nodes.map Node.toJson)),
        some (.arr (g.edges.map Edge.toJson)), some g.metadata.toJson] := by
    rw [toJson_eq_record]
    exact fields?_record rfl (by decide)
  have hnodes : asList? Node.ofJson? (.arr (g.nodes.map Node.toJson)) =
      some g.nodes :=
    asList?_encode fun n hn => n.ofJson?_toJson (hg.nodes n hn)
  have hedges : asList? Edge.ofJson? (.arr (g.edges.map Edge.toJson)) =
      some g.edges :=
    asList?_encode fun e _ => e.ofJson?_toJson
  simp [ofJson?, h, requiredField, asString?, hnodes, hedges,
    GraphMetadata.ofJson?_toJson hg.metadata]

theorem Graph.readAs {g : Graph} (hg : g.Fits) (hwhole : g.WholePlaces) :
    ReadAs g.toJson g.toJson := by
  have hnodes :
      ReadAs (.arr (g.nodes.map Node.toJson))
        (.arr (g.nodes.map Node.toJson)) :=
    .list fun n hn => n.readAs (hg.nodes n hn) (hwhole n hn)
  have hedges :
      ReadAs (.arr (g.edges.map Edge.toJson))
        (.arr (g.edges.map Edge.toJson)) :=
    .list fun e _ => e.readAs
  refine .members ?_
  simp [ReadAs.str, hnodes, hedges, GraphMetadata.readAs hg.metadata]

/-! ## Places that are not whole -/

theorem Position.readable (p : Position) : Readable p.toJson := by
  refine .members ?_
  simp [readable_real]

theorem NodeMetadata.readable {m : NodeMetadata} (hm : m.Fits) :
    Readable m.toJson := by
  refine .record ?_
  simp only [List.forall_mem_cons]
  refine ⟨.optional fun p _ => p.readable,
    .optional fun s _ => (ReadAs.str s).readable, .optional fun n hn =>
    (ReadAs.ofNat ?_).readable, .optional fun n hn =>
    (ReadAs.ofNat (hm.executionTime n hn)).readable, fun value hvalue =>
    (stringsUnlessEmpty_readAs _ value hvalue).readable, fun value hvalue =>
    (stringsUnlessEmpty_readAs _ value hvalue).readable, fun _ h =>
    absurd h List.not_mem_nil⟩
  have hcomplexity := hm.complexity n hn
  omega

theorem Node.readable {n : Node} (hn : n.metadata.Fits) :
    Readable n.toJson := by
  refine .record ?_
  simp [(ReadAs.str _).readable, (ReadAs.bool _).readable, NodeKind.toJson,
    (issues_readAs _).readable, NodeMetadata.readable hn]

theorem Graph.readable {g : Graph} (hg : g.Fits) : Readable g.toJson := by
  have hnodes : Readable (.arr (g.nodes.map Node.toJson)) :=
    .list fun n hn => n.readable (hg.nodes n hn)
  have hedges : Readable (.arr (g.edges.map Edge.toJson)) :=
    .list fun e _ => e.readAs.readable
  refine .members ?_
  simp [(ReadAs.str _).readable, hnodes, hedges,
    (GraphMetadata.readAs hg.metadata).readable]

end Workflows
