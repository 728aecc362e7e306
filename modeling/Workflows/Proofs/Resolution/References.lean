import Mathlib.Data.List.Nodup
import Workflows.Proofs.Graph.Reachability
import Workflows.Resolution.Walk

/-!
# References level by level

A reference leads to a document, or to none.  The references of a workflow are
met breadth first: those that it has itself, then those of the documents that
these lead to, and so on, where a key that is known already is not followed
again.  A key is first met on the level of its distance from the workflow.
-/

namespace Workflows

namespace Resolution

/-! ## Fresh references -/

theorem find?_of_nodup_keys {ds : List Dependency}
    (hnodup : (ds.map Dependency.key).Nodup) {d : Dependency} (h : d ∈ ds) :
    ds.find? (fun e => e.key == d.key) = some d := by
  induction ds with
  | nil => cases h
  | cons first rest ih =>
      obtain ⟨hfirst, hrest⟩ := List.nodup_cons.mp hnodup
      rcases List.mem_cons.mp h with rfl | h
      · simp
      · have hne : first.key ≠ d.key := by
          intro heq
          rw [heq] at hfirst
          exact hfirst (List.mem_map_of_mem h)
        rw [List.find?_cons_of_neg (by simpa using hne)]
        exact ih hrest h

namespace Walk

theorem expanded_fresh (known : List String) (ds : List Dependency) :
    (fresh known ds).2 = ((fresh known ds).1.map Dependency.key).reverse ++
      known := by
  induction ds generalizing known with
  | nil => rfl
  | cons d rest ih =>
      rw [fresh]
      split
      · exact ih known
      · rw [ih]
        simp

theorem nodup_expanded_fresh {known : List String} (h : known.Nodup)
    (ds : List Dependency) : (fresh known ds).2.Nodup := by
  induction ds generalizing known with
  | nil => exact h
  | cons d rest ih =>
      rw [fresh]
      split
      · exact ih h
      · next hnew => exact ih (List.nodup_cons.mpr ⟨hnew, h⟩)

theorem mem_of_mem_fresh {known : List String} {ds : List Dependency}
    {d : Dependency} (h : d ∈ (fresh known ds).1) : d ∈ ds := by
  induction ds generalizing known with
  | nil => exact h
  | cons first rest ih =>
      rw [fresh] at h
      split at h
      · exact List.mem_cons_of_mem _ (ih h)
      · rcases List.mem_cons.mp h with rfl | h
        · exact List.mem_cons_self
        · exact List.mem_cons_of_mem _ (ih h)

theorem mem_expanded_of_mem_known {known : List String} {key : String}
    (h : key ∈ known) (ds : List Dependency) : key ∈ (fresh known ds).2 := by
  rw [expanded_fresh]
  exact List.mem_append_right _ h

theorem mem_expanded_of_mem {known : List String} {ds : List Dependency}
    {d : Dependency} (h : d ∈ ds) : d.key ∈ (fresh known ds).2 := by
  induction ds generalizing known with
  | nil => cases h
  | cons first rest ih =>
      rw [fresh]
      split
      · next hknown =>
          rcases List.mem_cons.mp h with rfl | h
          · exact mem_expanded_of_mem_known hknown rest
          · exact ih h
      · rcases List.mem_cons.mp h with rfl | h
        · exact mem_expanded_of_mem_known List.mem_cons_self rest
        · exact ih h

theorem find?_fresh {known : List String} {key : String} (h : key ∉ known)
    (ds : List Dependency) :
    (fresh known ds).1.find? (fun d => d.key == key) =
      ds.find? fun d => d.key == key := by
  induction ds generalizing known with
  | nil => rfl
  | cons d rest ih =>
      by_cases heq : d.key = key
      · subst heq
        rw [fresh, if_neg h]
        simp
      · rw [fresh, List.find?_cons_of_neg (by simpa using heq)]
        split
        · exact ih h
        · have hnew : key ∉ d.key :: known := by simp [Ne.symm heq, h]
          rw [List.find?_cons_of_neg (by simpa using heq)]
          exact ih hnew

end Walk

/-! ## Levels -/

section Levels

variable (link : Dependency → Option Workflow)

def onward (d : Dependency) : List Dependency :=
  ((link d).map workflowsOf).getD []

structure Level where
  known : List String
  references : List Dependency

namespace Level

def first (l : Level) : List Dependency := (Walk.fresh l.known l.references).1

def next (l : Level) : Level :=
  ⟨(Walk.fresh l.known l.references).2, l.first.flatMap (onward link)⟩

theorem known_next (l : Level) :
    (l.next link).known = (l.first.map Dependency.key).reverse ++ l.known :=
  Walk.expanded_fresh l.known l.references

theorem mem_known_next {l : Level} {key : String} :
    key ∈ (l.next link).known ↔ key ∈ l.first.map Dependency.key ∨
    key ∈ l.known := by
  rw [known_next, List.mem_append, List.mem_reverse]

theorem nodup_known_next {l : Level} (h : l.known.Nodup) :
    (l.next link).known.Nodup :=
  Walk.nodup_expanded_fresh h l.references

theorem key_mem_known_next {l : Level} {d : Dependency} (h : d ∈ l.references) :
    d.key ∈ (l.next link).known :=
  Walk.mem_expanded_of_mem h

end Level

variable (w : Workflow)

def rootOf : String := Reference.key .workflow w.name

def levelAt : Nat → Level
  | 0 => ⟨[rootOf w], workflowsOf w⟩
  | n + 1 => (levelAt n).next link

def referencesWithin (depth : Nat) : List Dependency :=
  (List.range depth).flatMap fun n => (levelAt link w n).references

def firstWithin (depth : Nat) : List Dependency :=
  (List.range depth).flatMap fun n => (levelAt link w n).first

/-- The root has the references of the workflow, and any other key those of the
document behind the first reference to it. -/
def referenceGraph (depth : Nat) (key : String) : List String :=
  if key = rootOf w then referencesOf w
  else match (referencesWithin link w depth).find? fun d => d.key == key with
    | some d => (onward link d).map Dependency.key
    | none => []

theorem known_levelAt (n : Nat) :
    (levelAt link w n).known =
      ((firstWithin link w n).map Dependency.key).reverse ++ [rootOf w] := by
  induction n with
  | zero => rfl
  | succ n ih =>
      rw [levelAt, Level.known_next, ih, firstWithin, firstWithin,
        List.range_succ, List.flatMap_append, List.flatMap_singleton,
        List.map_append, List.reverse_append, List.append_assoc]

theorem nodup_known_levelAt (n : Nat) : (levelAt link w n).known.Nodup := by
  induction n with
  | zero => exact List.nodup_singleton _
  | succ n ih => exact Level.nodup_known_next link ih

variable {link w}

theorem nodup_keys_firstWithin (depth : Nat) :
    ((firstWithin link w depth).map Dependency.key).Nodup := by
  have hnodup := nodup_known_levelAt link w depth
  rw [known_levelAt] at hnodup
  exact List.nodup_reverse.mp (List.nodup_append.mp hnodup).1

theorem rootOf_notMem_keys_firstWithin (depth : Nat) :
    rootOf w ∉ (firstWithin link w depth).map Dependency.key := by
  have hnodup := nodup_known_levelAt link w depth
  rw [known_levelAt] at hnodup
  intro hmem
  exact (List.nodup_append.mp hnodup).2.2 _ (List.mem_reverse.mpr hmem) _
    List.mem_cons_self rfl

theorem find?_referencesWithin {key : String} (h : key ≠ rootOf w)
    (depth : Nat) :
    (referencesWithin link w depth).find? (fun d => d.key == key) =
      (firstWithin link w depth).find? fun d => d.key == key := by
  induction depth with
  | zero => rfl
  | succ depth ih =>
      rw [referencesWithin, firstWithin, List.range_succ, List.flatMap_append,
        List.flatMap_append, List.flatMap_singleton, List.flatMap_singleton,
        List.find?_append, List.find?_append, ← referencesWithin, ← firstWithin,
        ih]
      -- a key found on an earlier level is settled; any other is not known here
      cases hearlier : (firstWithin link w depth).find? fun d =>
        d.key == key with
      | some d => rfl
      | none =>
          have hnew : key ∉ (levelAt link w depth).known := by
            rw [known_levelAt]
            simpa [h] using hearlier
          rw [Option.none_or, Option.none_or]
          exact (Walk.find?_fresh hnew _).symm

theorem referenceGraph_root (depth : Nat) :
    referenceGraph link w depth (rootOf w) = referencesOf w := if_pos rfl

theorem referenceGraph_key {depth : Nat} {d : Dependency}
    (h : d ∈ firstWithin link w depth) :
    referenceGraph link w depth d.key = (onward link d).map Dependency.key := by
  have hkey : d.key ∈ (firstWithin link w depth).map Dependency.key :=
    List.mem_map_of_mem h
  have hroot : d.key ≠ rootOf w :=
    ne_of_mem_of_not_mem hkey (rootOf_notMem_keys_firstWithin depth)
  rw [referenceGraph, if_neg hroot, find?_referencesWithin hroot,
    find?_of_nodup_keys (nodup_keys_firstWithin depth) h]

/-! ## Distances -/

theorem mem_known_levelAt_succ {n : Nat} {key : String} :
    key ∈ (levelAt link w (n + 1)).known ↔
      key ∈ (levelAt link w n).first.map Dependency.key ∨
        key ∈ (levelAt link w n).known :=
  Level.mem_known_next link

theorem known_levelAt_mono {m n : Nat} (h : m ≤ n) {key : String}
    (hkey : key ∈ (levelAt link w m).known) :
    key ∈ (levelAt link w n).known := by
  induction h with
  | refl => exact hkey
  | step _ ih => exact mem_known_levelAt_succ.mpr (.inr ih)

theorem mem_firstWithin {n depth : Nat} (h : n < depth) {d : Dependency}
    (hd : d ∈ (levelAt link w n).first) : d ∈ firstWithin link w depth :=
  List.mem_flatMap.mpr ⟨n, List.mem_range.mpr h, hd⟩

theorem exists_of_mem_references {n depth : Nat} (hn : n ≤ depth)
    {d : Dependency} (h : d ∈ (levelAt link w n).references) :
    ∃ key ∈ (levelAt link w n).known,
      d.key ∈ referenceGraph link w depth key := by
  cases n with
  | zero =>
      refine ⟨rootOf w, List.mem_cons_self, ?_⟩
      rw [referenceGraph_root]
      exact List.mem_map_of_mem h
  | succ n =>
      obtain ⟨e, he, hd⟩ := List.mem_flatMap.mp h
      refine ⟨e.key, mem_known_levelAt_succ.mpr (.inl (List.mem_map_of_mem he)),
        ?_⟩
      rw [referenceGraph_key (mem_firstWithin hn he)]
      exact List.mem_map_of_mem hd

theorem mem_known_levelAt_of_mem_referenceGraph {n depth : Nat} (hn : n ≤ depth)
    {key next : String} (hkey : key ∈ (levelAt link w n).known)
    (hnext : next ∈ referenceGraph link w depth key) :
    next ∈ (levelAt link w (n + 1)).known := by
  induction n with
  | zero =>
      obtain rfl := List.mem_singleton.mp hkey
      rw [referenceGraph_root] at hnext
      obtain ⟨d, hd, rfl⟩ := List.mem_map.mp hnext
      exact Level.key_mem_known_next link hd
  | succ n ih =>
      -- followed from the level before, or known earlier and then by induction
      rcases mem_known_levelAt_succ.mp hkey with hfirst | hknown
      · obtain ⟨d, hd, rfl⟩ := List.mem_map.mp hfirst
        rw [referenceGraph_key (mem_firstWithin hn hd)] at hnext
        obtain ⟨e, he, rfl⟩ := List.mem_map.mp hnext
        exact Level.key_mem_known_next link (List.mem_flatMap.mpr ⟨d, hd, he⟩)
      · exact known_levelAt_mono (Nat.le_succ _)
          (ih (Nat.le_of_succ_le hn) hknown)

theorem mem_known_levelAt_iff {n depth : Nat} (hn : n ≤ depth) {key : String} :
    key ∈ (levelAt link w n).known ↔
      ∃ m ≤ n, ReachedIn (referenceGraph link w depth) (rootOf w) m key := by
  constructor
  · intro h
    induction n generalizing key with
    | zero =>
        obtain rfl := List.mem_singleton.mp h
        exact ⟨0, Nat.le_refl 0, .root⟩
    | succ n ih =>
        have hn' := Nat.le_of_succ_le hn
        rcases mem_known_levelAt_succ.mp h with hfirst | hknown
        · obtain ⟨d, hd, rfl⟩ := List.mem_map.mp hfirst
          obtain ⟨node, hnode, hnext⟩ :=
            exists_of_mem_references hn' (Walk.mem_of_mem_fresh hd)
          obtain ⟨m, hm, hreached⟩ := ih hn' hnode
          exact ⟨m + 1, Nat.succ_le_succ hm, hreached.next hnext⟩
        · obtain ⟨m, hm, hreached⟩ := ih hn' hknown
          exact ⟨m, Nat.le_succ_of_le hm, hreached⟩
  · rintro ⟨m, hm, hreached⟩
    refine known_levelAt_mono hm ?_
    have hm' := Nat.le_trans hm hn
    clear hm
    induction hreached with
    | root => exact List.mem_cons_self
    | @next m _ _ _ hnext ih =>
        have hle : m ≤ depth := Nat.le_of_succ_le hm'
        exact mem_known_levelAt_of_mem_referenceGraph hle (ih hle) hnext

/-- A key is first met on the level of its distance from the root. -/
theorem mem_first_iff {n depth : Nat} (hn : n < depth) {key : String} :
    key ∈ (levelAt link w n).first.map Dependency.key ↔
      ReachedIn (referenceGraph link w depth) (rootOf w) (n + 1) key ∧
        ∀ m ≤ n,
          ¬ ReachedIn (referenceGraph link w depth) (rootOf w) m key := by
  have hbefore : key ∈ (levelAt link w n).known ↔ _ :=
    mem_known_levelAt_iff (Nat.le_of_lt hn)
  have hafter : key ∈ (levelAt link w (n + 1)).known ↔ _ :=
    mem_known_levelAt_iff hn
  have hnodup := nodup_known_levelAt link w (n + 1)
  rw [levelAt, Level.known_next] at hnodup
  constructor
  · intro h
    have hnew : key ∉ (levelAt link w n).known := fun hknown =>
      (List.nodup_append.mp hnodup).2.2 key (List.mem_reverse.mpr h) key
        hknown rfl
    obtain ⟨m, hm, hreached⟩ := hafter.mp (mem_known_levelAt_succ.mpr (.inl h))
    have hnone :
        ∀ m ≤ n, ¬ ReachedIn (referenceGraph link w depth) (rootOf w) m key :=
      fun m hm hearlier => hnew (hbefore.mpr ⟨m, hm, hearlier⟩)
    obtain rfl : m = n + 1 := by
      by_contra hne
      exact hnone m (by omega) hreached
    exact ⟨hreached, hnone⟩
  · rintro ⟨hreached, hnone⟩
    refine (mem_known_levelAt_succ.mp
      (hafter.mpr ⟨n + 1, Nat.le_refl _, hreached⟩)) |>.resolve_right
      fun hknown => ?_
    obtain ⟨m, hm, hearlier⟩ := hbefore.mp hknown
    exact hnone m hm hearlier

end Levels

end Resolution

end Workflows
