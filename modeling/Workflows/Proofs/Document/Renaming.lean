import Workflows.Document.Format
import Workflows.Proofs.Graph.Likeness
import Workflows.Proofs.Json.Canonical

/-!
# Other names for the steps

The ids that an author gives to steps only connect targets with steps.  Under
other ids, given to the steps and to the targets that name them, a document has
the same graph.  New ids may look like numbered ones, and like old ones too: a
target is looked up once, among the ids as they are written then.
-/

namespace Workflows

namespace Successors

theorem map_map (f g : String → String) (s : Successors) :
    (s.map g).map f = s.map (f ∘ g) := by
  cases s with
  | one target => rfl
  | many targets => exact congrArg many List.map_map

theorem map_congr {f g : String → String} {s : Successors}
    (h : ∀ target ∈ s.targets, f target = g target) : s.map f = s.map g := by
  cases s with
  | one target => exact congrArg one (h target (.head _))
  | many targets => exact congrArg many (List.map_congr_left h)

end Successors

/-! ## Changed members -/

namespace Json

variable {members : List (String × Json)} {name other : String}

def mapMember (name : String) (f : Json → Json)
    (members : List (String × Json)) :
    List (String × Json) :=
  members.map fun entry => if entry.1 = name then (entry.1, f entry.2)
    else entry

theorem member?_mapMember_self (f : Json → Json) :
    member? (mapMember name f members) name = (member? members name).map f := by
  induction members with
  | nil => rfl
  | cons entry members ih =>
      rw [mapMember, List.map_cons, member?_cons, member?_cons]
      by_cases h : entry.1 = name
      · simp [h]
      · simp only [h, ↓reduceIte]
        exact ih

theorem member?_mapMember_of_ne (f : Json → Json) (h : other ≠ name) :
    member? (mapMember name f members) other = member? members other := by
  induction members with
  | nil => rfl
  | cons entry members ih =>
      rw [mapMember, List.map_cons, member?_cons, member?_cons]
      by_cases hname : entry.1 = name
      · have hother : name ≠ other := h.symm
        simp only [hname, ↓reduceIte, hother]
        exact ih
      · simp only [hname, ↓reduceIte]
        split
        · rfl
        · exact ih

end Json

namespace Document

open Json

/-! ## Renaming -/

def declaredId? : Json → Option String
  | .obj fields => textField? fields "id"
  | _ => none

def declaredIds (steps : List Json) : List String := steps.filterMap declaredId?

/-- What a step without an id has in the field where the ids are kept.  It would
count as one. -/
def strayId? : Json → Option String
  | .obj fields =>
      if (member? fields "id").isSome then none else textField? fields givenId
  | _ => none

def writtenTargets : Json → List String
  | .obj fields => (successorsOf? fields).elim [] Successors.targets
  | _ => []

section Renaming

variable (ids : List String) (newId : String → String)

def renamedText (text : String) : String :=
  if text ∈ ids then newId text else text

def renamedScalar (value : Json) : Json :=
  match scalarText? value with
  | some text => if text ∈ ids then .str (newId text) else value
  | none => value

def renamedNext : Json → Json
  | .arr items => .arr (items.map (renamedScalar ids newId))
  | value => renamedScalar ids newId value

def renamedFields (fields : List (String × Json)) : List (String × Json) :=
  mapMember "next" (renamedNext ids newId)
    (mapMember "id" (renamedScalar ids newId) fields)

def renamedEntry : Json → Json
  | .obj fields => .obj (renamedFields ids newId fields)
  | entry => entry

def renamedSteps : Json → Json
  | .arr items => .arr (items.map (renamedEntry ids newId))
  | value => value

end Renaming

/-- Gives new ids to the steps of a document that have one, and to the targets
that name them. -/
def withIds (newId : String → String) (fields : List (String × Json)) :
    List (String × Json) :=
  mapMember "steps" (renamedSteps (declaredIds (entries fields "steps")) newId)
    fields

/-- Different ids stay different, and none becomes a target that was no id
before. -/
structure NewIds (newId : String → String) (steps : List Json) : Prop where
  injective : ∀ id ∈ declaredIds steps, ∀ other ∈ declaredIds steps,
    newId id = newId other → id = other
  fresh : ∀ id ∈ declaredIds steps, ∀ entry ∈ steps,
    ∀ target ∈ writtenTargets entry, target ∉ declaredIds steps →
    newId id ≠ target

/-! ## Steps of a renamed document -/

/-- The second step is the first one with another id from its author and its
targets renamed. -/
structure RenamedStep (ids : List String) (newId : String → String)
    (s s' : Step) : Prop where
  id_eq : s'.id = s.id
  name_eq : s'.name = s.name
  description_eq : s'.description = s.description
  kind_eq : s'.kind = s.kind
  agent_eq : s'.agent = s.agent
  workflow_eq : s'.workflow = s.workflow
  resources_eq : s'.resources = s.resources
  conditions_eq : s'.conditions = s.conditions
  next_eq : s'.next = s.next.map (Successors.map (renamedText ids newId))
  given_eq :
    textField? s'.metadata givenId = (textField? s.metadata givenId).map newId
  given_mem : ∀ id, textField? s.metadata givenId = some id → id ∈ ids
  count_eq : ∀ name ∈ Graph.countNames,
    Graph.countField? s'.metadata name = Graph.countField? s.metadata name

theorem RenamedStep.alike {ids : List String} {newId : String → String}
    {s s' : Step} (h : RenamedStep ids newId s s')
    {resolve resolve' : String → String} (htargets : ∀ target ∈ s.targets,
      resolve' (renamedText ids newId target) = resolve target) :
    Step.Alike { s' with next := s'.next.map (Successors.map resolve') }
      { s with next := s.next.map (Successors.map resolve) } where
  id_eq := h.id_eq
  name_eq := h.name_eq
  description_eq := h.description_eq
  kind_eq := h.kind_eq
  agent_eq := h.agent_eq
  workflow_eq := h.workflow_eq
  resources_eq := h.resources_eq
  next_eq := by
    simp only [h.next_eq, Option.map_map]
    cases hnext : s.next with
    | none => rfl
    | some next =>
        have hcomp : ∀ target ∈ next.targets,
            (resolve' ∘ renamedText ids newId) target = resolve target := by
          simpa [Step.targets, hnext] using htargets
        exact congrArg some
          ((Successors.map_map _ _ next).trans (Successors.map_congr hcomp))
  condition_eq := by rw [h.conditions_eq]
  count_eq := h.count_eq

section Fields

variable {ids : List String} {newId : String → String}
  {fields : List (String × Json)}

theorem scalarText?_renamedScalar (value : Json) :
    scalarText? (renamedScalar ids newId value) =
      (scalarText? value).map (renamedText ids newId) := by
  unfold renamedScalar
  split
  · next text htext =>
      rw [htext, Option.map_some, renamedText]
      split
      · rfl
      · exact htext
  · next hnone => simp [hnone]

theorem itemTexts_map_renamedScalar (items : List Json) :
    itemTexts (items.map (renamedScalar ids newId)) =
      (itemTexts items).map (renamedText ids newId) := by
  rw [itemTexts, itemTexts, List.filterMap_map, List.map_filterMap]
  exact List.filterMap_congr fun value _ => scalarText?_renamedScalar value

theorem member?_renamedFields {name : String} (hid : name ≠ "id")
    (hnext : name ≠ "next") :
    member? (renamedFields ids newId fields) name = member? fields name := by
  rw [renamedFields, member?_mapMember_of_ne _ hnext,
    member?_mapMember_of_ne _ hid]

theorem member?_renamedFields_id :
    member? (renamedFields ids newId fields) "id" =
    (member? fields "id").map (renamedScalar ids newId) := by
  rw [renamedFields, member?_mapMember_of_ne _ (by decide),
    member?_mapMember_self]

theorem member?_renamedFields_next :
    member? (renamedFields ids newId fields) "next" =
    (member? fields "next").map (renamedNext ids newId) := by
  rw [renamedFields, member?_mapMember_self,
    member?_mapMember_of_ne _ (by decide)]

theorem textField?_renamedFields {name : String} (hid : name ≠ "id")
    (hnext : name ≠ "next") :
    textField? (renamedFields ids newId fields) name =
      textField? fields name := by
  rw [textField?, textField?, member?_renamedFields hid hnext]

theorem renamedNext_of_ne_arr {value : Json} (h : ∀ items, value ≠ .arr items) :
    renamedNext ids newId value = renamedScalar ids newId value := by
  cases value with
  | arr items => exact absurd rfl (h items)
  | _ => rfl

theorem renamedScalar_ne_arr {value : Json} (h : ∀ items, value ≠ .arr items)
    (items : List Json) : renamedScalar ids newId value ≠ .arr items := by
  unfold renamedScalar
  split
  · split
    · exact Json.noConfusion
    · exact h items
  · exact h items

theorem successorsOf?_of_arr {items : List Json}
    (h : member? fields "next" = some (.arr items)) :
    successorsOf? fields = some (.many (itemTexts items)) := by
  rw [successorsOf?, h]

theorem successorsOf?_of_ne_arr {value : Json}
    (hvalue : ∀ items, value ≠ .arr items)
    (h : member? fields "next" = some value) :
    successorsOf? fields = (scalarText? value).map .one := by
  rw [successorsOf?, h]
  cases value with
  | arr items => exact absurd rfl (hvalue items)
  | _ => rfl

theorem successorsOf?_renamedFields :
    successorsOf? (renamedFields ids newId fields) =
    (successorsOf? fields).map (Successors.map (renamedText ids newId)) := by
  cases hnext : member? fields "next" with
  | none => simp [successorsOf?, member?_renamedFields_next, hnext]
  | some value =>
      have hrenamed : member? (renamedFields ids newId fields) "next" =
          some (renamedNext ids newId value) := by
        rw [member?_renamedFields_next, hnext, Option.map_some]
      by_cases harr : ∃ items, value = .arr items
      · obtain ⟨items, rfl⟩ := harr
        rw [successorsOf?_of_arr hnext, successorsOf?_of_arr hrenamed,
          itemTexts_map_renamedScalar]
        rfl
      · have hne : ∀ items, value ≠ .arr items :=
          fun items heq => harr ⟨items, heq⟩
        rw [renamedNext_of_ne_arr hne] at hrenamed
        rw [successorsOf?_of_ne_arr hne hnext,
          successorsOf?_of_ne_arr (renamedScalar_ne_arr hne) hrenamed,
          scalarText?_renamedScalar, Option.map_map, Option.map_map]
        rfl

/-! The metadata of a step. -/

theorem member?_stepMetadata {name : String} (hname : name ∉ stepKeys fields)
    (hgiven : name ≠ givenId) :
    member? (stepMetadata fields) name = member? fields name := by
  have hfilter :
      member? (fields.filter fun entry => !(stepKeys fields).contains entry.1)
        name = member? fields name :=
    member?_filter_of_kept (fun key => !(stepKeys fields).contains key)
      (by simpa)
  unfold stepMetadata
  dsimp only
  split
  · rw [member?_insertMember_of_ne _ hgiven, hfilter]
  · exact hfilter

/-- The fields that can have a meaning of their own in some step. -/
def meaningfulFields : List String :=
  ["name", "title", "type", "resources", "next", "id", "description", "action",
    "agent", "workflow", "conditions"]

theorem stepKeys_subset : stepKeys fields ⊆ meaningfulFields := by
  unfold stepKeys
  split <;> decide

theorem textField?_renamedFields_id
    (hid : ∀ id, textField? fields "id" = some id → id ∈ ids) :
    textField? (renamedFields ids newId fields) "id" =
      (textField? fields "id").map newId := by
  have hmap : textField? (renamedFields ids newId fields) "id" =
      (textField? fields "id").map (renamedText ids newId) := by
    rw [textField?, textField?, member?_renamedFields_id]
    cases member? fields "id" with
    | none => rfl
    | some value => exact scalarText?_renamedScalar value
  rw [hmap]
  exact Option.map_congr fun id h => if_pos (hid id h)

theorem countField?_stepMetadata {name : String} (h : name ∈ Graph.countNames) :
    Graph.countField? (stepMetadata fields) name =
      (member? fields name).bind asCount? := by
  have hdisjoint : ∀ name ∈ Graph.countNames, name ≠ givenId ∧
      name ∉ meaningfulFields := by
    decide
  obtain ⟨hgiven, hname⟩ := hdisjoint name h
  rw [Graph.countField?, member?_stepMetadata (fun hkey =>
    hname (stepKeys_subset hkey)) hgiven]

theorem givenId_stepMetadata : textField? (stepMetadata fields) givenId =
    if (member? fields "id").isSome then textField? fields "id"
    else textField? fields givenId := by
  unfold stepMetadata
  dsimp only
  cases hid : member? fields "id" with
  | some id => simp [textField?, member?_insertMember_self, hid]
  | none =>
      have hkept :
          member? (fields.filter fun entry =>
            !(stepKeys fields).contains entry.1) givenId =
              member? fields givenId :=
        member?_filter_of_kept (fun key => !(stepKeys fields).contains key)
          (by simpa using fun h => absurd (stepKeys_subset h) (by decide))
      exact congrArg (·.bind scalarText?) hkept

end Fields

section Steps

variable {ids : List String} {newId : String → String} {entry : Json}

theorem givenId_stepOfEntry (position : Nat) (hstray : strayId? entry = none) :
    textField? (stepOfEntry position entry).metadata givenId =
      declaredId? entry := by
  cases entry with
  | obj fields =>
      rw [stepOfEntry, stepOfFields, givenId_stepMetadata, declaredId?]
      cases hid : member? fields "id" with
      | some id => rfl
      | none => simpa [strayId?, textField?, hid] using hstray
  | _ => rfl

theorem strayId?_renamedEntry :
    strayId? (renamedEntry ids newId entry) = strayId? entry := by
  cases entry with
  | obj fields =>
      rw [renamedEntry, strayId?, strayId?, member?_renamedFields_id,
        Option.isSome_map, textField?_renamedFields (by decide) (by decide)]
  | _ => rfl

theorem declaredId?_renamedEntry
    (hid : ∀ id, declaredId? entry = some id → id ∈ ids) :
    declaredId? (renamedEntry ids newId entry) =
      (declaredId? entry).map newId := by
  cases entry with
  | obj fields => exact textField?_renamedFields_id hid
  | _ => rfl

theorem targets_stepOfEntry (position : Nat) :
    (stepOfEntry position entry).targets = writtenTargets entry := by
  cases entry with
  | obj fields =>
      rw [stepOfEntry, Step.targets, writtenTargets, stepOfFields]
      cases successorsOf? fields <;> rfl
  | _ => rfl

theorem renamedStep_of_fields (position : Nat) {fields : List (String × Json)}
    (hstray : strayId? (.obj fields) = none)
    (hid : ∀ id, declaredId? (.obj fields) = some id → id ∈ ids) :
    RenamedStep ids newId (stepOfEntry position (.obj fields))
      (stepOfEntry position (renamedEntry ids newId (.obj fields))) where
  id_eq := rfl
  name_eq := by
    simp (disch := decide) only [stepOfEntry, renamedEntry, stepOfFields,
      textField?_renamedFields]
  description_eq := textField?_renamedFields (by decide) (by decide)
  kind_eq := by
    simp (disch := decide) only [stepOfEntry, renamedEntry, stepOfFields,
      textField?_renamedFields]
  agent_eq := textField?_renamedFields (by decide) (by decide)
  workflow_eq := textField?_renamedFields (by decide) (by decide)
  resources_eq := by
    simp (disch := decide) only [stepOfEntry, renamedEntry, stepOfFields,
      stepResources?, member?_renamedFields]
  conditions_eq := member?_renamedFields (by decide) (by decide)
  next_eq := successorsOf?_renamedFields
  given_eq := by
    rw [givenId_stepOfEntry position hstray,
      givenId_stepOfEntry position (strayId?_renamedEntry.trans hstray),
      declaredId?_renamedEntry hid]
  given_mem := by
    rw [givenId_stepOfEntry position hstray]
    exact hid
  count_eq := by
    intro name hname
    have hne : ∀ name ∈ Graph.countNames, name ≠ "id" ∧ name ≠ "next" := by
      decide
    simp only [stepOfEntry, renamedEntry, stepOfFields]
    rw [countField?_stepMetadata hname, countField?_stepMetadata hname,
      member?_renamedFields (hne name hname).1 (hne name hname).2]

theorem renamedStep_of_entry (position : Nat) (hstray : strayId? entry = none)
    (hid : ∀ id, declaredId? entry = some id → id ∈ ids) :
    RenamedStep ids newId (stepOfEntry position entry)
      (stepOfEntry position (renamedEntry ids newId entry)) := by
  cases entry with
  | obj fields => exact renamedStep_of_fields position hstray hid
  | _ =>
      exact ⟨rfl, rfl, rfl, rfl, rfl, rfl, rfl, rfl,
        rfl, rfl, (fun _ h => nomatch h), fun _ _ => rfl⟩

end Steps

/-! ## The targets -/

theorem map_find?_of_forall₂ {α β γ : Type} {r : α → β → Prop} {l : List α}
    {l' : List β} (h : List.Forall₂ r l l') {p : α → Bool} {q : β → Bool}
    {f : α → γ} {g : β → γ} (htest : ∀ a b, r a b → p a = q b)
    (hvalue : ∀ a b, r a b → f a = g b) :
    (l.find? p).map f = (l'.find? q).map g := by
  induction h with
  | nil => rfl
  | @cons a b l l' hab _ ih =>
      rw [List.find?_cons, List.find?_cons, htest a b hab]
      cases q b with
      | true => simp [hvalue a b hab]
      | false => exact ih

section Targets

variable {ids : List String} {newId : String → String}
  {found found' : List Step} {target : String}

theorem map_find?_given (before after : String)
    (h : List.Forall₂ (RenamedStep ids newId) found found')
    (hsame : ∀ id ∈ ids, newId id = after ↔ id = before) :
    (found'.reverse.find? fun s => textField? s.metadata givenId ==
      some after).map Step.id =
      (found.reverse.find? fun s => textField? s.metadata givenId ==
        some before).map Step.id := by
  refine (map_find?_of_forall₂ (List.rel_reverse h) (fun s s' hs => ?_)
    fun s s' hs => hs.id_eq.symm).symm
  rw [hs.given_eq]
  cases hgiven : textField? s.metadata givenId with
  | none => rfl
  | some id => simp [hsame id (hs.given_mem id hgiven)]

theorem renamed_of_mem (h : List.Forall₂ (RenamedStep ids newId) found found')
    (hinj : ∀ id ∈ ids, ∀ other ∈ ids, newId id = newId other → id = other)
    (htarget : target ∈ ids)
    (hdeclared : ∃ s ∈ found, textField? s.metadata givenId = some target) :
    renamed found' (newId target) = renamed found target := by
  have hsame := map_find?_given target (newId target) h fun id hid =>
    ⟨hinj id hid target htarget, congrArg newId⟩
  obtain ⟨s, hs, hgiven⟩ := hdeclared
  have hfound : (found.reverse.find? fun s =>
      textField? s.metadata givenId == some target).isSome = true :=
    List.find?_isSome.mpr ⟨s, List.mem_reverse.mpr hs, by simp [hgiven]⟩
  obtain ⟨first, hfirst⟩ := Option.isSome_iff_exists.mp hfound
  unfold renamed
  dsimp only
  rw [hsame, hfirst]
  rfl

theorem renamed_of_notMem
    (h : List.Forall₂ (RenamedStep ids newId) found found')
    (htarget : target ∉ ids) (hfresh : ∀ id ∈ ids, newId id ≠ target) :
    renamed found' target = renamed found target := by
  have hsame := map_find?_given target target h fun id hid =>
    ⟨fun heq => absurd heq (hfresh id hid),
      fun heq => absurd (heq ▸ hid) htarget⟩
  exact congrArg (·.getD target) hsame

end Targets

/-! ## Documents -/

section Documents

variable {newId : String → String} {steps : List Json}

theorem forall₂_renamedStep (newId : String → String)
    (hstray : ∀ entry ∈ steps, strayId? entry = none) :
    List.Forall₂ (RenamedStep (declaredIds steps) newId)
      (steps.mapIdx stepOfEntry)
      ((steps.map (renamedEntry (declaredIds steps) newId)).mapIdx
        stepOfEntry) := by
  refine List.forall₂_iff_get.mpr ⟨by simp, fun position hlt hlt' => ?_⟩
  have hposition : position < steps.length := by simpa using hlt
  have hentry := List.getElem_mem hposition
  simp only [List.get_eq_getElem, List.getElem_mapIdx, List.getElem_map]
  exact renamedStep_of_entry position (hstray _ hentry) fun id hid =>
    List.mem_filterMap.mpr ⟨_, hentry, hid⟩

theorem exists_given_of_mem (hstray : ∀ entry ∈ steps, strayId? entry = none)
    {id : String} (hid : id ∈ declaredIds steps) :
    ∃ s ∈ steps.mapIdx stepOfEntry,
      textField? s.metadata givenId = some id := by
  obtain ⟨entry, hentry, hdeclared⟩ := List.mem_filterMap.mp hid
  obtain ⟨position, hlt, rfl⟩ := List.getElem_of_mem hentry
  exact ⟨stepOfEntry position steps[position],
    List.mem_mapIdx.mpr ⟨position, hlt, rfl⟩,
    (givenId_stepOfEntry position (hstray _ hentry)).trans hdeclared⟩

theorem renamed_renamedText (hstray : ∀ entry ∈ steps, strayId? entry = none)
    (hnew : NewIds newId steps) {entry : Json} (hentry : entry ∈ steps)
    {target : String} (htarget : target ∈ writtenTargets entry) :
    renamed ((steps.map (renamedEntry (declaredIds steps) newId)).mapIdx
        stepOfEntry)
        (renamedText (declaredIds steps) newId target) =
      renamed (steps.mapIdx stepOfEntry) target := by
  have hsteps := forall₂_renamedStep newId hstray
  by_cases hid : target ∈ declaredIds steps
  · rw [renamedText, if_pos hid]
    exact renamed_of_mem hsteps hnew.injective hid
      (exists_given_of_mem hstray hid)
  · rw [renamedText, if_neg hid]
    exact renamed_of_notMem hsteps hid fun id h =>
      hnew.fresh id h entry hentry target htarget hid

theorem alike_writtenSteps (hstray : ∀ entry ∈ steps, strayId? entry = none)
    (hnew : NewIds newId steps) :
    List.Forall₂ Step.Alike
      (writtenSteps (steps.map (renamedEntry (declaredIds steps) newId)))
      (writtenSteps steps) := by
  have hsteps := forall₂_renamedStep newId hstray
  refine List.forall₂_iff_get.mpr ⟨by simp [writtenSteps],
    fun position hlt' hlt => ?_⟩
  have hposition : position < steps.length := by simpa [writtenSteps] using hlt
  have hstep :=
    hsteps.get (i := position) (by simpa using hposition)
      (by simpa using hposition)
  simp only [List.get_eq_getElem, writtenSteps, List.getElem_map] at hstep ⊢
  refine hstep.alike fun target htarget => ?_
  rw [List.getElem_mapIdx, targets_stepOfEntry] at htarget
  exact renamed_renamedText hstray hnew (List.getElem_mem hposition) htarget

theorem entries_withIds (newId : String → String)
    (fields : List (String × Json)) :
    entries (withIds newId fields) "steps" =
      (entries fields "steps").map
        (renamedEntry (declaredIds (entries fields "steps")) newId) := by
  have hsteps : member? (withIds newId fields) "steps" =
      (member? fields "steps").map (renamedSteps
        (declaredIds (entries fields "steps")) newId) :=
      member?_mapMember_self _
  generalize declaredIds (entries fields "steps") = ids at hsteps ⊢
  rw [entries, entries, hsteps]
  cases member? fields "steps" with
  | none => rfl
  | some value => cases value <;> rfl

theorem member?_withIds (newId : String → String)
    (fields : List (String × Json)) {name : String} (h : name ≠ "steps") :
    member? (withIds newId fields) name = member? fields name :=
  member?_mapMember_of_ne _ h

/-- A document with other ids for its steps has the same graph.  It does not
matter whether the ids are different from one another or from the numbered
ones. -/
theorem graph_withIds {fields : List (String × Json)}
    (hstray : ∀ entry ∈ entries fields "steps", strayId? entry = none)
    (hnew : NewIds newId (entries fields "steps")) (prose : Option (List Char))
    (specId : String) :
    Graph.ofWorkflow (workflowOf (withIds newId fields) prose) specId =
      Graph.ofWorkflow (workflowOf fields prose) specId := by
  have hwritten := alike_writtenSteps hstray hnew
  rw [← entries_withIds] at hwritten
  refine Graph.ofWorkflow_of_alike ⟨?_, ?_, ?_⟩ specId
  · simp (disch := decide) only [workflowOf, textField?, member?_withIds]
  · simp only [workflowOf]
    generalize writtenSteps (entries (withIds newId fields) "steps") =
      written' at hwritten
    generalize writtenSteps (entries fields "steps") = written at hwritten
    cases hwritten with
    | nil => exact List.forall₂_same.mpr fun s _ => .refl s
    | cons hfirst hrest => exact .cons hfirst hrest
  · simp (disch := decide) only [workflowOf, dependenciesOf, entries,
      member?_withIds]

def crossedSteps : List Json :=
  [.obj [("id", .str "step-2"), ("next", .str "last")],
   .obj [("id", .str "middle"), ("next", .str "step-2")],
   .obj [("id", .str "last"), ("next", .arr [.str "step-1", .str "middle"])]]

theorem graph_withIds_swapped :
    let newId : String → String := fun id =>
      if id = "step-2" then "middle" else if id = "middle" then "step-2"
      else "step-3"
    let fields := [("name", .str "Crossed"), ("steps", .arr crossedSteps)]
    (∀ entry ∈ entries fields "steps", strayId? entry = none) ∧
      NewIds newId (entries fields "steps") ∧
      entries (withIds newId fields) "steps" =
        [.obj [("id", .str "middle"), ("next", .str "step-3")],
         .obj [("id", .str "step-2"), ("next", .str "middle")],
         .obj [("id", .str "step-3"),
           ("next", .arr [.str "step-1", .str "step-2"])]] ∧
      Graph.ofWorkflow (workflowOf (withIds newId fields) none) "crossed" =
        Graph.ofWorkflow (workflowOf fields none) "crossed" := by
  intro newId fields
  have hstray : ∀ entry ∈ entries fields "steps", strayId? entry = none := by
    decide
  have hnew : NewIds newId (entries fields "steps") := ⟨by decide, by decide⟩
  exact ⟨hstray, hnew, rfl, graph_withIds hstray hnew none "crossed"⟩

end Documents

end Document

end Workflows
