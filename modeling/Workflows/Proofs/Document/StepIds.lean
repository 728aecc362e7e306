import Mathlib.Data.List.Nodup
import Workflows.Proofs.Document.Mapping

/-!
# Step ids

Whatever a document writes about its steps, they are numbered in order: the
steps of a workflow that was read have the ids `step-1`, `step-2` and so on.
-/

namespace Workflows

/-! ## Numbers at the end -/

namespace Text

theorem toString_injective : Function.Injective (toString : Nat → String) := by
  intro m n h
  have hvalue := congrArg (fun s => Nat.ofDigitChars 10 s.toList 0) h
  simpa [Nat.toString_eq_ofList_toDigits] using hvalue

theorem hyphen_notMem_toString (n : Nat) : '-' ∉ (toString n).toList := by
  intro h
  rw [Nat.toString_eq_ofList_toDigits, String.toList_ofList] at h
  exact absurd (Nat.isDigit_of_mem_toDigits (by decide) (by decide) h)
    (by decide)

theorem append_hyphen_inj {before before' after after' : List Char}
    (h : before ++ '-' :: after = before' ++ '-' :: after')
    (hafter : '-' ∉ after) (hafter' : '-' ∉ after') :
    before = before' ∧ after = after' := by
  rcases List.append_eq_append_iff.mp h with
    ⟨between, rfl, hrest⟩ | ⟨between, rfl, hrest⟩
  · cases between with
    | nil => simpa using hrest
    | cons c between =>
        rw [List.cons_append, List.cons.injEq] at hrest
        rw [hrest.2] at hafter
        exact absurd (List.mem_append_right between List.mem_cons_self) hafter
  · cases between with
    | nil => simpa [eq_comm] using hrest
    | cons c between =>
        rw [List.cons_append, List.cons.injEq] at hrest
        rw [hrest.2] at hafter'
        exact absurd (List.mem_append_right between List.mem_cons_self) hafter'

theorem append_number_inj {s t : String} {m n : Nat}
    (h : s ++ "-" ++ toString m = t ++ "-" ++ toString n) : s = t ∧ m = n := by
  have hlist : s.toList ++ '-' :: (toString m).toList =
      t.toList ++ '-' :: (toString n).toList := by
    simpa using congrArg String.toList h
  obtain ⟨hbefore, hafter⟩ := append_hyphen_inj hlist
    (hyphen_notMem_toString m) (hyphen_notMem_toString n)
  exact ⟨String.toList_injective hbefore,
    toString_injective (String.toList_injective hafter)⟩

end Text

namespace Document

theorem stepId_injective : Function.Injective stepId := by
  intro i j h
  have hnumber :=
    Text.toString_injective ((String.append_right_inj "step-").mp h)
  omega

theorem nodup_stepIds (count : Nat) : ((List.range count).map stepId).Nodup :=
  List.nodup_range.map stepId_injective

end Document

/-- The ids of the steps are their positions, counted from one. -/
def Workflow.IsNumbered (w : Workflow) : Prop :=
  w.steps.map Step.id = (List.range w.steps.length).map Document.stepId

namespace Document

/-! ## Reading numbers the steps -/

theorem map_id_mapIdx {α : Type} {stepAt : Nat → α → Step}
    (hid : ∀ position item, (stepAt position item).id = stepId position)
    (items : List α) :
    (items.mapIdx stepAt).map Step.id =
      (List.range items.length).map stepId := by
  apply List.ext_getElem
  · simp
  · intro position _ _
    simp [hid]

theorem id_stepOfEntry (position : Nat) (entry : Json) :
    (stepOfEntry position entry).id = stepId position := by
  cases entry <;> rfl

theorem map_id_writtenSteps (entries : List Json) :
    (writtenSteps entries).map Step.id =
      (List.range (writtenSteps entries).length).map stepId := by
  have hlength : (writtenSteps entries).length = entries.length := by
    simp [writtenSteps]
  rw [hlength, ← map_id_mapIdx id_stepOfEntry, writtenSteps, List.map_map]
  rfl

theorem map_id_proseSteps (text : List Char) :
    (proseSteps text).map Step.id =
      (List.range (proseSteps text).length).map stepId := by
  rw [proseSteps, map_id_mapIdx (fun _ _ => rfl), List.length_mapIdx]

theorem steps_workflowOf (fields : List (String × Json))
    (prose : Option (List Char)) :
    (workflowOf fields prose).steps =
      if (writtenSteps (entries fields "steps")).isEmpty then
        (prose.map proseSteps).getD []
      else writtenSteps (entries fields "steps") :=
  rfl

theorem isNumbered_workflowOf (fields : List (String × Json))
    (prose : Option (List Char)) : (workflowOf fields prose).IsNumbered := by
  rw [Workflow.IsNumbered, steps_workflowOf]
  split
  · cases prose with
    | none => rfl
    | some text => exact map_id_proseSteps text
  · exact map_id_writtenSteps _

/-! ## Workflows that were read -/

theorem isNumbered_of_parse {text : String} {format : Option DocumentFormat}
    {w : Workflow} (h : parse text format = .ok w) : w.IsNumbered := by
  obtain ⟨fields, prose, -, rfl⟩ := exists_mapping_of_parse h
  exact isNumbered_workflowOf fields prose

end Document

end Workflows
