import Mathlib.Data.List.Forall2
import Mathlib.Data.List.Induction
import Mathlib.Logic.Function.Basic
import Workflows.Proofs.Document.StepIds

/-!
# Targets and declared ids

The targets of the written steps are the ids that authors declare, and each
becomes the number of the step that was declared with it last.  It makes no
difference whether all targets are replaced at once or one after the other where
they stand: a target that was replaced is not looked up again, though its new id
may be one that an author declares.
-/

namespace Workflows

namespace Successors

/-- The same form, with as many targets in the same order, each related to the
one before. -/
inductive Related (r : String → String → Prop) : Successors → Successors → Prop
  | one {target target' : String} (h : r target target') :
      Related r (one target) (one target')
  | many {targets targets' : List String}
      (h : List.Forall₂ r targets targets') :
      Related r (many targets) (many targets')

def mapAt (position : Nat) (f : String → String) : Successors → Successors
  | one target => if position = 0 then one (f target) else one target
  | many targets => many (targets.modify position f)

theorem related_map {r : String → String → Prop} {f : String → String}
    (h : ∀ target, r target (f target)) (s : Successors) :
    Related r s (s.map f) := by
  cases s with
  | one target => exact .one (h target)
  | many targets =>
      apply Related.many
      rw [List.forall₂_map_right_iff, List.forall₂_same]
      exact fun target _ => h target

end Successors

namespace Document

/-! ## What a target leads to -/

def declaredBy? (s : Step) : Option String := textField? s.metadata givenId

/-- The step at a position is the last one that was declared with an id. -/
inductive LastDeclared (steps : List Step) (id : String) : Nat → Prop
  | intro {before after : List Step} {s : Step}
      (hsteps : steps = before ++ s :: after) (hid : declaredBy? s = some id)
      (hlast : ∀ later ∈ after, declaredBy? later ≠ some id) :
      LastDeclared steps id before.length

/-- A declared id leads to the number of the step that was declared with it
last, and any other target to itself. -/
inductive LeadsTo (steps : List Step) (target : String) : String → Prop
  | declared {position : Nat} (h : LastDeclared steps target position) :
      LeadsTo steps target (stepId position)
  | other (h : ∀ s ∈ steps, declaredBy? s ≠ some target) :
      LeadsTo steps target target

/-- The second step is the first one but for its targets, which are related one
by one. -/
structure Retargeted (r : String → String → Prop) (s s' : Step) : Prop where
  eq_with_next : s' = { s with next := s'.next }
  next_related : Option.Rel (Successors.Related r) s.next s'.next

section LeadsTo

variable {steps : List Step} {target id : String}

theorem renamed_eq (steps : List Step) (target : String) :
    renamed steps target =
      ((steps.reverse.find? fun s => declaredBy? s == some target).map
        Step.id).getD target :=
  rfl

theorem renamed_of_other (h : ∀ s ∈ steps, declaredBy? s ≠ some target) :
    renamed steps target = target := by
  have hnone : (steps.reverse.find? fun s => declaredBy? s == some target) =
      none := by
    simpa using h
  rw [renamed_eq, hnone]
  rfl

theorem renamed_of_lastDeclared {position : Nat}
    (hnumbered : steps.map Step.id = (List.range steps.length).map stepId)
    (h : LastDeclared steps target position) :
    renamed steps target = stepId position := by
  obtain @⟨before, after, s, rfl, hid, hlast⟩ := h
  have hafter : (after.reverse.find? fun s => declaredBy? s == some target) =
      none := by
    simpa using hlast
  have hfound : ((before ++ s :: after).reverse.find? fun s =>
      declaredBy? s == some target) =
      some s := by
    simp [List.find?_append, hafter, hid]
  have hs : s.id = stepId before.length := by
    simpa using congrArg (·[before.length]?) hnumbered
  rw [renamed_eq, hfound, Option.map_some, hs]
  rfl

theorem exists_lastDeclared (h : ∃ s ∈ steps, declaredBy? s = some target) :
    ∃ position, LastDeclared steps target position := by
  obtain ⟨s, hs, hid⟩ := h
  have hfound :
      (steps.reverse.find? fun s => declaredBy? s == some target).isSome := by
    rw [List.find?_isSome]
    exact ⟨s, List.mem_reverse.mpr hs, by simp [hid]⟩
  obtain ⟨last, hlast⟩ := Option.isSome_iff_exists.mp hfound
  obtain ⟨hdeclared, after, before, hsplit, hafter⟩ :=
    List.find?_eq_some_iff_append.mp hlast
  have hsteps : steps = before.reverse ++ last :: after.reverse := by
    simpa using congrArg List.reverse hsplit
  exact ⟨_, .intro hsteps (by simpa using hdeclared) (by simpa using hafter)⟩

theorem leadsTo_iff
    (hnumbered : steps.map Step.id = (List.range steps.length).map stepId) :
    LeadsTo steps target id ↔ renamed steps target = id := by
  constructor
  · rintro (h | h)
    · exact renamed_of_lastDeclared hnumbered h
    · exact renamed_of_other h
  · rintro rfl
    by_cases h : ∃ s ∈ steps, declaredBy? s = some target
    · obtain ⟨position, hposition⟩ := exists_lastDeclared h
      rw [renamed_of_lastDeclared hnumbered hposition]
      exact .declared hposition
    · have hother : ∀ s ∈ steps, declaredBy? s ≠ some target := by simpa using h
      rw [renamed_of_other hother]
      exact .other hother

end LeadsTo

/-! ## One target after the other -/

/-- The numbers of the steps under the ids that were declared, filled step after
step. -/
def declaredTable (steps : List Step) : String → Option String :=
  steps.foldl (fun table s =>
    match declaredBy? s with
    | some id => Function.update table id (some s.id)
    | none => table) fun _ => none

def replaceAt (f : String → String) (steps : List Step) (place : Nat × Nat) :
    List Step :=
  steps.modify place.1 fun s =>
    { s with next := s.next.map (Successors.mapAt place.2 f) }

def places : List Step → List (Nat × Nat)
  | [] => []
  | s :: steps =>
      (List.range s.targets.length).map (Prod.mk 0) ++
        (places steps).map fun place => (place.1 + 1, place.2)

/-- Looks up one target after the other and replaces it where it stands. -/
def replacedInTurn (steps : List Step) : List Step :=
  (places steps).foldl (replaceAt fun target =>
    (declaredTable steps target).getD target) steps

section InTurn

theorem declaredTable_concat (steps : List Step) (s : Step) :
    declaredTable (steps ++ [s]) =
      match declaredBy? s with
      | some id => Function.update (declaredTable steps) id (some s.id)
      | none => declaredTable steps := by
  simp [declaredTable, List.foldl_append]

theorem declaredTable_eq (steps : List Step) (target : String) :
    declaredTable steps target =
      (steps.reverse.find? fun s => declaredBy? s == some target).map
        Step.id := by
  induction steps using List.reverseRecOn with
  | nil => rfl
  | append_singleton steps s ih =>
      rw [declaredTable_concat, List.reverse_concat, List.find?_cons]
      cases hid : declaredBy? s with
      | none => simpa using ih
      | some id =>
          by_cases heq : target = id
          · simp [heq]
          · have hne : (id == target) = false := by simpa using Ne.symm heq
            simp [Function.update_of_ne heq, hne, ih]

theorem getD_declaredTable (steps : List Step) (target : String) :
    (declaredTable steps target).getD target = renamed steps target := by
  rw [declaredTable_eq, renamed_eq]

/-! A change at every position, one after the other, is a change of all. -/

theorem foldl_modify_succ {α : Type} (f : α → α) (item : α) (items : List α)
    (positions : List Nat) :
    (positions.map (· + 1)).foldl
      (fun items position => items.modify position f)
        (item :: items) =
      item :: positions.foldl (fun items position =>
        items.modify position f) items := by
  induction positions generalizing items with
  | nil => rfl
  | cons position positions ih => simp [ih]

theorem foldl_modify_range {α : Type} (f : α → α) (items : List α) :
    (List.range items.length).foldl
      (fun items position => items.modify position f) items =
      items.map f := by
  induction items with
  | nil => rfl
  | cons item items ih =>
      rw [List.length_cons, List.range_succ_eq_map, List.foldl_cons,
        List.modify_zero_cons, List.map_cons, ← ih]
      exact foldl_modify_succ f (f item) items (List.range items.length)

theorem foldl_mapAt_many (f : String → String) (targets : List String)
    (positions : List Nat) :
    positions.foldl (fun next position => next.mapAt position f)
      (.many targets) = Successors.many
        (positions.foldl (fun items position =>
          items.modify position f) targets) := by
  induction positions generalizing targets with
  | nil => rfl
  | cons position positions ih => exact ih _

theorem foldl_mapAt_range (f : String → String) (next : Successors) :
    (List.range next.targets.length).foldl
      (fun next position => next.mapAt position f) next =
      next.map f := by
  cases next with
  | one target => rfl
  | many targets =>
      rw [foldl_mapAt_many, Successors.targets, foldl_modify_range]
      rfl

theorem foldl_replaceAt_zero (f : String → String) (s : Step)
    (steps : List Step) (positions : List Nat) :
    (positions.map (Prod.mk 0)).foldl (replaceAt f) (s :: steps) =
      { s with next := s.next.map fun next =>
          positions.foldl (fun next position => next.mapAt position f) next } ::
            steps := by
  induction positions generalizing s with
  | nil => simp
  | cons position positions ih => simp [replaceAt, ih, Function.comp_def]

theorem foldl_replaceAt_succ (f : String → String) (s : Step)
    (steps : List Step) (found : List (Nat × Nat)) :
    (found.map fun place => (place.1 + 1, place.2)).foldl
      (replaceAt f) (s :: steps) =
      s :: found.foldl (replaceAt f) steps := by
  induction found generalizing steps with
  | nil => rfl
  | cons place found ih => simp [replaceAt, ih]

theorem foldl_replaceAt_places (f : String → String) (steps : List Step) :
    (places steps).foldl (replaceAt f) steps =
      steps.map fun s => { s with next := s.next.map (Successors.map f) } := by
  induction steps with
  | nil => rfl
  | cons s steps ih =>
      rw [places, List.foldl_append, foldl_replaceAt_zero, foldl_replaceAt_succ,
        ih, List.map_cons]
      cases hnext : s.next with
      | none => rfl
      | some next => simp [Step.targets, hnext, foldl_mapAt_range]

theorem writtenSteps_eq_replacedInTurn (entries : List Json) :
    writtenSteps entries = replacedInTurn (entries.mapIdx stepOfEntry) := by
  simp only [replacedInTurn, getD_declaredTable, foldl_replaceAt_places]
  rfl

end InTurn

/-! ## The written steps -/

theorem map_id_mapIdx_stepOfEntry (entries : List Json) :
    (entries.mapIdx stepOfEntry).map Step.id =
      (List.range (entries.mapIdx stepOfEntry).length).map stepId := by
  rw [map_id_mapIdx id_stepOfEntry, List.length_mapIdx]

theorem retargeted_writtenSteps (entries : List Json) :
    List.Forall₂ (Retargeted (LeadsTo (entries.mapIdx stepOfEntry)))
      (entries.mapIdx stepOfEntry) (writtenSteps entries) := by
  have hleads (target : String) : LeadsTo (entries.mapIdx stepOfEntry) target
      (renamed (entries.mapIdx stepOfEntry) target) :=
    (leadsTo_iff (map_id_mapIdx_stepOfEntry entries)).mpr rfl
  change List.Forall₂ _ _ ((entries.mapIdx stepOfEntry).map fun s => _)
  rw [List.forall₂_map_right_iff, List.forall₂_same]
  intro s _
  refine ⟨rfl, ?_⟩
  cases s.next with
  | none => exact .none
  | some next => exact .some (Successors.related_map hleads next)

/-- The written steps are numbered in order, and are as their entries say but
for the targets: each becomes the number of the last step that was declared with
it, or else stays as it is.  There is one id that a target leads to, and
replacing one target after the other where it stands gives the same steps. -/
theorem writtenSteps_retargeted (entries : List Json) :
    (writtenSteps entries).map Step.id =
      (List.range entries.length).map stepId ∧
    List.Forall₂ (Retargeted (LeadsTo (entries.mapIdx stepOfEntry)))
      (entries.mapIdx stepOfEntry) (writtenSteps entries) ∧
    (∀ target, ∃! id, LeadsTo (entries.mapIdx stepOfEntry) target id) ∧
    writtenSteps entries = replacedInTurn (entries.mapIdx stepOfEntry) := by
  have hlength : (writtenSteps entries).length = entries.length := by
    simp [writtenSteps]
  have hleads {target id : String} :
      LeadsTo (entries.mapIdx stepOfEntry) target id ↔
      renamed (entries.mapIdx stepOfEntry) target = id :=
    leadsTo_iff (map_id_mapIdx_stepOfEntry entries)
  refine ⟨?_, retargeted_writtenSteps entries, fun target => ?_,
    writtenSteps_eq_replacedInTurn entries⟩
  · rw [map_id_writtenSteps, hlength]
  · exact ⟨_, hleads.mpr rfl, fun id hid => (hleads.mp hid).symm⟩

example :
    (writtenSteps [.obj [("id", .str "step-2"), ("next", .str "last")],
      .obj [("id", .str "last"),
        ("next", .arr [.str "step-2", .str "step-1"])]]).map Step.targets =
        [["step-2"], ["step-1", "step-1"]] := by
  decide

end Document

end Workflows
