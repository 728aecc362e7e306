import Mathlib.Data.List.Nodup
import Workflows.Resolution.Cache

/-!
# What a cache holds

Of a cache only what is stored under each key and the two counts can be seen.
Each operation is described by what it does to these: a request stores an answer
where nothing was stored, and leaves all other keys as they were.
-/

namespace Workflows.Cache

variable {c : Cache} {key : RequestKey}

@[simp] theorem stored?_empty (key : RequestKey) : empty.stored? key = none :=
  rfl

@[simp] theorem stored?_clear (c : Cache) (key : RequestKey) :
    c.clear.stored? key = none := rfl

theorem key_of_slot? {slot : Slot} (h : c.slot? key = some slot) :
    slot.key = key := by
  simpa using List.find?_some h

theorem slot?_reserve_of_ne {other : RequestKey} (h : other ≠ key) :
    (c.reserve key).slot? other = c.slot? other := by
  unfold reserve
  split
  · rfl
  · have hne : (key == other) = false := beq_false_of_ne h.symm
    simp [slot?, hne]

theorem slot?_reserve_self (c : Cache) (key : RequestKey) :
    (c.reserve key).slot? key = some ((c.slot? key).getD ⟨key, none⟩) := by
  unfold reserve
  cases h : c.slot? key with
  | some slot => simpa using h
  | none =>
      have hnone : c.slots.find? (fun s => s.key == key) = none := h
      simp [slot?, hnone]

theorem slot?_store {d : ResolvedDependency} {slot : Slot}
    (h : c.slot? key = some slot) (other : RequestKey) :
    (c.store key d).slot? other =
      if other = key then some ⟨key, some d⟩ else c.slot? other := by
  have hkeys : ((fun s : Slot => s.key == other) ∘
      fun s : Slot => if s.key = key then ⟨key, some d⟩ else s) =
      fun s => s.key == other := by
    funext s
    by_cases hs : s.key = key <;> simp [hs]
  rw [slot?, store, List.find?_map, hkeys]
  by_cases heq : other = key
  · subst heq
    have hslot : c.slots.find? (fun s => s.key == other) = some slot := h
    simp [hslot, key_of_slot? h]
  · rw [if_neg heq]
    cases hother : c.slot? other with
    | none =>
        simp [show c.slots.find? (fun s => s.key == other) = none from hother]
    | some found =>
        have hne : found.key ≠ key := by
          rw [key_of_slot? hother]
          exact heq
        simp [show c.slots.find? (fun s => s.key == other) =
          some found from hother, hne]

theorem stored?_reserve (c : Cache) (key other : RequestKey) :
    (c.reserve key).stored? other = c.stored? other := by
  by_cases heq : other = key
  · subst heq
    rw [stored?, stored?, slot?_reserve_self]
    cases c.slot? other <;> rfl
  · rw [stored?, stored?, slot?_reserve_of_ne heq]

theorem stored?_store_reserve (c : Cache) (key other : RequestKey)
    (d : ResolvedDependency) :
    ((c.reserve key).store key d).stored? other =
      if other = key then some d else c.stored? other := by
  rw [stored?, slot?_store (slot?_reserve_self c key)]
  by_cases heq : other = key
  · simp [heq]
  · rw [if_neg heq, if_neg heq, slot?_reserve_of_ne heq]
    rfl

/-! ## Requests -/

variable (resolve : Unit → Except ResolutionError ResolvedDependency)

theorem fetch_of_stored {d : ResolvedDependency} (h : c.stored? key = some d) :
    c.fetch key resolve = (.ok d, { c with hits := c.hits + 1 }) := by
  simp [fetch, h]

theorem answer_fetch (c : Cache) (key : RequestKey) :
    (c.fetch key resolve).1 =
      match c.stored? key with
      | some d => .ok d
      | none => resolve () := by
  unfold fetch
  cases c.stored? key with
  | some d => rfl
  | none => cases resolve () <;> rfl

theorem stored?_fetch (c : Cache) (key other : RequestKey) :
    (c.fetch key resolve).2.stored? other =
      if key = other then (c.fetch key resolve).1.toOption
      else c.stored? other := by
  cases h : c.stored? key with
  | some d =>
      rw [fetch_of_stored resolve h]
      by_cases heq : key = other
      · rw [if_pos heq, ← heq]
        exact h
      · rw [if_neg heq]
        rfl
  | none =>
      unfold fetch
      rw [h]
      cases hresolve : resolve () with
      | ok d =>
          refine (stored?_store_reserve c key other d).trans ?_
          simp only [eq_comm (a := other)]
          rfl
      | error cause =>
          refine (stored?_reserve c key other).trans ?_
          by_cases heq : key = other
          · rw [if_pos heq, ← heq, h]
            rfl
          · rw [if_neg heq]

theorem hits_add_misses_fetch (c : Cache) (key : RequestKey) :
    (c.fetch key resolve).2.hits + (c.fetch key resolve).2.misses =
      c.hits + c.misses + 1 := by
  have hhits : (c.reserve key).hits = c.hits := by
    unfold reserve
    split <;> rfl
  unfold fetch
  cases c.stored? key with
  | some d =>
      simp only
      omega
  | none => cases resolve () <;> simp [store, hhits, Nat.add_assoc]

theorem misses_fetch (c : Cache) (key : RequestKey) :
    (c.fetch key resolve).2.misses =
      c.misses + if (c.stored? key).isNone then 1 else 0 := by
  unfold fetch
  cases c.stored? key with
  | some d => simp
  | none => cases resolve () <;> simp [store]

/-! ## Keys of slots -/

def keys (c : Cache) : List RequestKey := c.slots.map Slot.key

theorem isSome_slot?_iff {c : Cache} {key : RequestKey} :
    (c.slot? key).isSome = true ↔ key ∈ c.keys := by
  simp [slot?, keys, List.find?_isSome]

theorem keys_reserve (c : Cache) (key : RequestKey) :
    (c.reserve key).keys = if key ∈ c.keys then c.keys
      else c.keys ++ [key] := by
  unfold reserve
  simp only [isSome_slot?_iff]
  split
  · rfl
  · simp [keys]

theorem keys_store (c : Cache) (key : RequestKey) (d : ResolvedDependency) :
    (c.store key d).keys = c.keys := by
  rw [keys, store, List.map_map]
  refine List.map_congr_left fun s _ => ?_
  by_cases hkey : s.key = key <;> simp [hkey]

@[simp] theorem hits_reserve (c : Cache) (key : RequestKey) :
    (c.reserve key).hits = c.hits := by
  unfold reserve
  split <;> rfl

@[simp] theorem misses_reserve (c : Cache) (key : RequestKey) :
    (c.reserve key).misses = c.misses := by
  unfold reserve
  split <;> rfl

theorem stored?_store {c : Cache} {key : RequestKey} (h : key ∈ c.keys)
    (d : ResolvedDependency) (other : RequestKey) :
    (c.store key d).stored? other = if other = key then some d
      else c.stored? other := by
  have hreserve : c.reserve key = c := by
    rw [reserve, if_pos (isSome_slot?_iff.mpr h)]
  rw [← stored?_store_reserve, hreserve]

theorem stored?_eq_some_iff (h : c.keys.Nodup) {d : ResolvedDependency} :
    c.stored? key = some d ↔ ⟨key, some d⟩ ∈ c.slots := by
  rw [stored?, slot?]
  rw [keys] at h
  generalize c.slots = slots at h ⊢
  induction slots with
  | nil => simp
  | cons slot rest ih =>
      obtain ⟨hnew, hrest⟩ := List.nodup_cons.mp h
      obtain ⟨first, entry⟩ := slot
      by_cases hkey : first = key
      · subst hkey
        have hother : (⟨first, some d⟩ : Slot) ∉ rest := fun hmem =>
          hnew (List.mem_map.mpr ⟨_, hmem, rfl⟩)
        simp [hother, eq_comm]
      · rw [List.find?_cons_of_neg (by simpa using hkey), ih hrest]
        simp [Ne.symm hkey]

theorem nodup_keys_reserve (h : c.keys.Nodup) (key : RequestKey) :
    (c.reserve key).keys.Nodup := by
  rw [keys_reserve]
  split
  · exact h
  · next hnew =>
      exact h.append (List.nodup_singleton key)
        (List.disjoint_singleton.mpr hnew)

theorem nodup_keys_fetch (h : c.keys.Nodup) (key : RequestKey) :
    (c.fetch key resolve).2.keys.Nodup := by
  have hreserve := nodup_keys_reserve h key
  unfold fetch
  cases c.stored? key with
  | some d => exact h
  | none =>
      cases resolve () with
      | error cause => exact hreserve
      | ok d => exact (keys_store (c.reserve key) key d).symm ▸ hreserve

theorem stored?_of_perm {slots : List Slot} (h : c.keys.Nodup)
    (hslots : slots.Perm c.slots) (key : RequestKey) :
    stored? { c with slots := slots } key = c.stored? key := by
  have hkeys : (keys { c with slots := slots }).Nodup :=
    (hslots.map Slot.key).nodup_iff.mpr h
  refine Option.ext fun d => ?_
  rw [stored?_eq_some_iff hkeys, stored?_eq_some_iff h, hslots.mem_iff]

end Workflows.Cache
