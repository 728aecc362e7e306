import Workflows.Proofs.Document.Mapping
import Workflows.Proofs.Json.Records
import Workflows.Proofs.Yaml.Values
import Workflows.Workflow.Codec

/-!
# Free-form data of workflows

A workflow holds free-form data: the conditions and the metadata of its steps,
and metadata of its own.  Of every workflow that is read, from a mapping, a
document or JSON, it is in order.
-/

namespace Workflows

open Json

@[mk_iff]
structure Step.InOrder (s : Step) : Prop where
  conditions : ∀ value ∈ s.conditions, value.InOrder
  metadata : MembersInOrder s.metadata

/-- All free-form data of a workflow is in order. -/
@[mk_iff]
structure Workflow.InOrder (w : Workflow) : Prop where
  steps : ∀ s ∈ w.steps, s.InOrder
  metadata : MembersInOrder w.metadata

instance (s : Step) : Decidable s.InOrder := decidable_of_iff' _ s.inOrder_iff

instance (w : Workflow) : Decidable w.InOrder :=
  decidable_of_iff' _ w.inOrder_iff

/-! ## Workflows of documents -/

namespace Document

theorem inOrder_ofName (id name : String) : (Step.ofName id name).InOrder :=
  ⟨nofun, trivial⟩

theorem inOrder_stepOfFields {fields : List (String × Json)}
    (h : MembersInOrder fields) (position : Nat) :
    (stepOfFields position fields).InOrder := by
  refine ⟨fun value hvalue => h.of_member? hvalue, ?_⟩
  simp only [stepOfFields, stepMetadata]
  split
  · next id hid => exact (h.filter _).insertMember givenId (h.of_member? hid)
  · exact h.filter _

theorem inOrder_stepOfEntry {entry : Json} (h : entry.InOrder)
    (position : Nat) :
    (stepOfEntry position entry).InOrder := by
  cases entry with
  | obj fields => exact inOrder_stepOfFields h position
  | _ => exact inOrder_ofName _ _

theorem inOrder_entries {fields : List (String × Json)}
    (h : MembersInOrder fields) (name : String) :
    ∀ entry ∈ entries fields name, entry.InOrder := by
  rw [entries]
  split
  · next items hitems => exact itemsInOrder_iff.mp (h.of_member? hitems)
  · nofun

theorem inOrder_workflowOf {fields : List (String × Json)}
    (h : MembersInOrder fields) (prose : Option (List Char)) :
    (workflowOf fields prose).InOrder := by
  refine ⟨fun s hs => ?_, h.filter _⟩
  change s ∈ if (writtenSteps (entries fields "steps")).isEmpty then
    (prose.map proseSteps).getD []
      else writtenSteps (entries fields "steps") at hs
  split at hs
  · cases prose with
    | none => cases hs
    | some text =>
        obtain ⟨position, hlt, rfl⟩ := List.mem_mapIdx.mp hs
        exact inOrder_ofName _ _
  · obtain ⟨written, hwritten, rfl⟩ := List.mem_map.mp hs
    obtain ⟨position, hlt, rfl⟩ := List.mem_mapIdx.mp hwritten
    obtain ⟨hconditions, hmetadata⟩ :=
      inOrder_stepOfEntry (inOrder_entries h "steps" _ (List.getElem_mem hlt))
        position
    exact ⟨hconditions, hmetadata⟩

theorem membersInOrder_of_frontMapping {front : Option (List Char)}
    {fields : List (String × Json)} (h : frontMapping front = .ok fields) :
    MembersInOrder fields := by
  unfold frontMapping at h
  split at h
  · cases h
    trivial
  · split at h
    · cases h
      trivial
    · split at h
      · cases h
      · next hread =>
          cases h
          exact Yaml.inOrder_of_read? hread
      · cases h
        trivial
      · cases h

theorem membersInOrder_of_mapping {text : String}
    {format : Option DocumentFormat} {fields : List (String × Json)}
    (h : mapping text format = .ok fields) :
    MembersInOrder fields := by
  unfold mapping at h
  split at h
  · obtain ⟨parts, -, hfields⟩ := exists_of_bind_ok h
    exact membersInOrder_of_frontMapping hfields
  · unfold structuredMapping at h
    split at h
    · cases h
    · next hread =>
        cases h
        exact Yaml.inOrder_of_read? hread
    · cases h

theorem inOrder_of_parse {text : String} {format : Option DocumentFormat}
    {w : Workflow} (h : parse text format = .ok w) : w.InOrder := by
  obtain ⟨fields, prose, hfields, rfl⟩ := exists_mapping_of_parse h
  exact inOrder_workflowOf (membersInOrder_of_mapping hfields) prose

end Document

/-! ## Workflows of JSON -/

theorem membersInOrder_of_defaultField {field : Option Json}
    {members : List (String × Json)} (h : defaultField [] asMembers? field =
      some members) : MembersInOrder members := by
  cases field with
  | none =>
      cases h
      trivial
  | some value =>
      cases value with
      | obj written =>
          cases h
          exact membersInOrder_canonicalMembers written
      | _ => cases h

theorem inOrder_of_optionalField {field given : Option Json}
    (h : optionalField (fun value => some value.canonical) field = some given) :
    ∀ value ∈ given, value.InOrder := by
  intro value hvalue
  unfold optionalField at h
  split at h
  · cases h
    cases hvalue
  · cases h
    cases hvalue
  · cases h
    cases hvalue
    exact inOrder_canonical _

theorem Step.inOrder_of_ofJson? {j : Json} {s : Step} (h : ofJson? j = some s) :
    s.InOrder := by
  simp only [ofJson?, Option.bind_eq_bind, Option.bind_eq_some_iff] at h
  obtain ⟨fields, -, h⟩ := h
  split at h
  · simp only [Option.bind_eq_some_iff] at h
    obtain ⟨_, -, _, -, _, -, _, -, _, -, _, -, _, -, _, -, given, hgiven, _, -,
      members, hmembers, heq⟩ := h
    cases heq
    exact ⟨inOrder_of_optionalField hgiven,
      membersInOrder_of_defaultField hmembers⟩
  · cases h

theorem Workflow.inOrder_of_ofJson? {j : Json} {w : Workflow}
    (h : ofJson? j = some w) :
    w.InOrder := by
  simp only [ofJson?, Option.bind_eq_bind, Option.bind_eq_some_iff] at h
  obtain ⟨fields, -, h⟩ := h
  split at h
  · simp only [Option.bind_eq_some_iff] at h
    obtain ⟨_, -, _, -, _, -, _, -, steps, hsteps, _, -, members, hmembers,
        heq⟩ := h
    cases heq
    refine ⟨fun s hs => ?_, membersInOrder_of_defaultField hmembers⟩
    obtain ⟨value, -, hvalue⟩ := Option.bind_eq_some_iff.mp hsteps
    obtain ⟨item, hitem⟩ := exists_of_mem_asList? hvalue hs
    exact Step.inOrder_of_ofJson? hitem
  · cases h

end Workflows
