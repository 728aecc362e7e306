import Mathlib.Data.List.Basic
import Workflows.Resolution.Decision

/-!
# What a decision does to the slots

A decision goes through the slots in order.  It passes those of other ids and
the empty ones, replaces the entries of its own id one by one, and stops at the
first entry that it cannot be carried out on.
-/

namespace Workflows

def Slot.entryIn (slots : List Slot) (key : RequestKey) :
    Option ResolvedDependency :=
  (slots.find? fun s => s.key == key).bind entry

namespace Resolution

def Decided (c : Config) (decision : Decision) (d d' : ResolvedDependency) :
    Prop :=
  ∃ files, (decideEntry c decision files d).2 = .ok d'

/-- The slots before and after a decision, and its result. -/
inductive Decides (c : Config) (decision : Decision) :
    List Slot → List Slot → Except ResolutionError (List ResolvedDependency) →
    Prop
  | nil : Decides c decision [] [] (.ok [])
  | pass {slot : Slot} {rest rest' : List Slot}
      {result : Except ResolutionError (List ResolvedDependency)}
      (hslot : slot.entry = none ∨ slot.key.id ≠ decision.dependencyId)
      (hrest : Decides c decision rest rest' result) :
      Decides c decision (slot :: rest) (slot :: rest') result
  | replace {key : RequestKey} {d d' : ResolvedDependency}
      {rest rest' : List Slot}
      {result : Except ResolutionError (List ResolvedDependency)}
      (hid : key.id = decision.dependencyId)
      (hdecided : Decided c decision d d')
      (hrest : Decides c decision rest rest' result) :
      Decides c decision (⟨key, some d⟩ :: rest) (⟨key, some d'⟩ :: rest')
        (result.map (d' :: ·))
  | stop {key : RequestKey} {d : ResolvedDependency} {rest : List Slot}
      {files : FileTree} {cause : ResolutionError}
      (hid : key.id = decision.dependencyId)
      (hcause : (decideEntry c decision files d).2 = .error cause) :
      Decides c decision (⟨key, some d⟩ :: rest) (⟨key, some d⟩ :: rest)
        (.error cause)

theorem decides_decideSlots (c : Config) (decision : Decision)
    (files : FileTree) (slots : List Slot) :
    Decides c decision slots (decideSlots c decision files slots).2.1
      (decideSlots c decision files slots).2.2 := by
  induction slots generalizing files with
  | nil => exact .nil
  | cons slot rest ih =>
      obtain ⟨key, entry⟩ := slot
      rw [decideSlots]
      cases entry with
      | none => exact .pass (.inl rfl) (ih files)
      | some d =>
          cases hid : key.id == decision.dependencyId with
          | false => exact .pass (.inr (by simpa using hid)) (ih files)
          | true =>
              have hid : key.id = decision.dependencyId := by simpa using hid
              dsimp only
              rcases hentry : decideEntry c decision files d with
                  ⟨files', cause | d'⟩
              · have hcause :
                    (decideEntry c decision files d).2 = .error cause := by
                  rw [hentry]
                exact .stop hid hcause
              · exact .replace hid ⟨files, by rw [hentry]⟩ (ih files')

namespace Decides

variable {c : Config} {decision : Decision} {slots slots' : List Slot}
  {result : Except ResolutionError (List ResolvedDependency)} {key : RequestKey}

theorem keys_eq (h : Decides c decision slots slots' result) :
    slots'.map Slot.key = slots.map Slot.key := by
  induction h with
  | nil => rfl
  | @pass slot _ _ _ _ _ ih => exact congrArg (slot.key :: ·) ih
  | @replace key _ _ _ _ _ _ _ _ ih => exact congrArg (key :: ·) ih
  | stop => rfl

theorem entryIn (h : Decides c decision slots slots' result)
    (key : RequestKey) :
    Slot.entryIn slots' key = Slot.entryIn slots key ∨
      key.id = decision.dependencyId ∧ ∃ d d', Slot.entryIn slots key = some d ∧
        Slot.entryIn slots' key = some d' ∧ Decided c decision d d' := by
  induction h with
  | nil => exact .inl rfl
  | @pass slot _ _ _ _ _ ih =>
      by_cases hkey : slot.key = key
      · left
        simp [Slot.entryIn, hkey]
      · simpa [Slot.entryIn, hkey] using ih
  | @replace first d d' _ _ _ hid hdecided _ ih =>
      by_cases hkey : first = key
      · right
        exact ⟨hkey ▸ hid, d, d', by simp [Slot.entryIn, hkey],
          by simp [Slot.entryIn, hkey], hdecided⟩
      · simpa [Slot.entryIn, hkey] using ih
  | stop => exact .inl rfl

theorem exists_of_ok {ds : List ResolvedDependency}
    (h : Decides c decision slots slots' (.ok ds)) {d : ResolvedDependency}
    (hid : key.id = decision.dependencyId)
    (hd : Slot.entryIn slots key = some d) :
    ∃ d', Slot.entryIn slots' key = some d' ∧ Decided c decision d d' := by
  generalize hresult : Except.ok ds = result at h
  induction h generalizing ds with
  | nil => simp [Slot.entryIn] at hd
  | @pass slot _ _ _ hslot _ ih =>
      by_cases hkey : slot.key = key
      · simp only [Slot.entryIn, hkey, List.find?_cons_of_pos, beq_self_eq_true,
          Option.bind_some] at hd
        rcases hslot with hnone | hother
        · simp [hnone] at hd
        · exact absurd (hkey ▸ hid) hother
      · simp only [Slot.entryIn, hkey, List.find?_cons_of_neg, beq_iff_eq,
          not_false_eq_true] at hd ⊢
        exact ih hd hresult
  | @replace first e e' _ _ result _ hdecided _ ih =>
      by_cases hkey : first = key
      · obtain rfl : e = d := by simpa [Slot.entryIn, hkey] using hd
        exact ⟨e', by simp [Slot.entryIn, hkey], hdecided⟩
      · cases result with
        | error cause => cases hresult
        | ok ds =>
            simp only [Slot.entryIn, hkey, List.find?_cons_of_neg, beq_iff_eq,
              not_false_eq_true] at hd ⊢
            exact ih hd rfl
  | stop => cases hresult

theorem eq_of_ok {ds : List ResolvedDependency}
    (h : Decides c decision slots slots' (.ok ds)) :
    ds = (slots'.filter fun s => s.key.id == decision.dependencyId).filterMap
      Slot.entry := by
  generalize hresult : Except.ok ds = result at h
  induction h generalizing ds with
  | nil =>
      cases hresult
      rfl
  | @pass slot _ _ _ hslot _ ih =>
      rw [ih hresult, List.filter_cons]
      split
      · next hid =>
          have hnone := hslot.resolve_right (not_not.mpr (by simpa using hid))
          simp [hnone]
      · rfl
  | @replace key d d' _ _ result hid _ _ ih =>
      cases result with
      | error cause => cases hresult
      | ok rest =>
          cases hresult
          rw [ih rfl]
          simp [hid]
  | stop => cases hresult

theorem decided_of_mem {ds : List ResolvedDependency}
    (h : Decides c decision slots slots' (.ok ds)) {d' : ResolvedDependency}
    (hd' : d' ∈ ds) : ∃ d, Decided c decision d d' := by
  generalize hresult : Except.ok ds = result at h
  induction h generalizing ds with
  | nil =>
      cases hresult
      cases hd'
  | pass _ _ ih => exact ih hd' hresult
  | @replace _ d _ _ _ result _ hdecided _ ih =>
      cases result with
      | error cause => cases hresult
      | ok rest =>
          cases hresult
          rcases List.mem_cons.mp hd' with rfl | hrest
          · exact ⟨d, hdecided⟩
          · exact ih hrest rfl
  | stop => cases hresult

end Decides

theorem carryOut_decides (c : Config) (decision : Decision) (r : Registry) :
    ∃ result, Decides c decision r.cache.slots
        (carryOut c decision r).1.cache.slots result ∧
      (carryOut c decision r).1.cache.hits = r.cache.hits ∧
      (carryOut c decision r).1.cache.misses = r.cache.misses ∧
      ∀ ds, (carryOut c decision r).2 = .ok ds → result = .ok ds := by
  have hdecides := decides_decideSlots c decision r.files r.cache.slots
  unfold carryOut
  rcases hslots : decideSlots c decision r.files r.cache.slots with
    ⟨files, slots, cause | (_ | ⟨d, ds⟩)⟩ <;> rw [hslots] at hdecides
  · exact ⟨_, hdecides, rfl, rfl, fun ds h => h⟩
  · refine ⟨_, hdecides, rfl, rfl, fun ds h => ?_⟩
    cases h
  · exact ⟨_, hdecides, rfl, rfl, fun ds h => h⟩

theorem decideSlots_of_carryOut {c : Config} {decision : Decision}
    {r : Registry} {ds : List ResolvedDependency}
    (h : (carryOut c decision r).2 = .ok ds) :
    (decideSlots c decision r.files r.cache.slots).2.2 = .ok ds := by
  unfold carryOut at h
  generalize decideSlots c decision r.files r.cache.slots = outcome at h ⊢
  obtain ⟨files, slots, cause | (_ | ⟨d, ds⟩)⟩ := outcome
  · cases h
  · cases h
  · exact h

end Resolution

end Workflows
