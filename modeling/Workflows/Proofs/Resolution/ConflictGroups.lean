import Mathlib.Data.List.Basic
import Mathlib.Data.List.Induction
import Workflows.Proofs.Graph.Successors
import Workflows.Resolution.Workflow

/-!
# Groups of entries in conflict

Entries of one id are in conflict as soon as their paths are written
differently.  Going through entries one by one, each joins the group of its id
or starts a new one at the end.  So the conflicts of one id stand together, the
ids in the order of their first entries.
-/

namespace Workflows

namespace Resolution

/-! ## Paths that differ -/

theorem two_le_length_distinct_iff {items : List String} :
    2 ≤ (distinct items).length ↔ ∃ a ∈ items, ∃ b ∈ items, a ≠ b := by
  have hnodup := nodup_distinct items
  have hmem : ∀ item, item ∈ distinct items ↔ item ∈ items :=
    fun _ => mem_distinct
  cases hdistinct : distinct items with
  | nil =>
      rw [hdistinct] at hmem
      refine iff_of_false (by simp) ?_
      rintro ⟨a, ha, -⟩
      exact List.not_mem_nil ((hmem a).mpr ha)
  | cons first rest =>
      rw [hdistinct] at hmem hnodup
      cases rest with
      | nil =>
          refine iff_of_false (by simp) ?_
          rintro ⟨a, ha, b, hb, hne⟩
          have ha := List.mem_singleton.mp ((hmem a).mpr ha)
          have hb := List.mem_singleton.mp ((hmem b).mpr hb)
          exact hne (ha.trans hb.symm)
      | cons second rest =>
          have hne : first ≠ second := fun heq =>
            (List.nodup_cons.mp hnodup).1 (heq ▸ List.mem_cons_self)
          exact iff_of_true (by simp) ⟨first, (hmem first).mp (by simp), second,
            (hmem second).mp (by simp), hne⟩

theorem mem_pathConflictsOf {ds : List ResolvedDependency} {id : String}
    {conflict : Conflict} (h : conflict ∈ pathConflictsOf ds id) :
    2 ≤ (pathsOf ds id).length ∧ conflict.dependencyId = id := by
  rw [pathConflictsOf] at h
  split at h
  · cases h
  · next hmany =>
      rw [List.eq_of_mem_replicate h]
      exact ⟨Nat.le_of_not_lt hmany, rfl⟩

theorem two_le_length_pathsOf_iff {ds : List ResolvedDependency} {id : String} :
    2 ≤ (pathsOf ds id).length ↔
      ∃ d ∈ ds, ∃ e ∈ ds, d.id = id ∧ e.id = id ∧ d.physicalPath ≠
        e.physicalPath := by
  rw [pathsOf, two_le_length_distinct_iff]
  simp only [List.mem_map, List.mem_filter, beq_iff_eq]
  constructor
  · rintro ⟨-, ⟨d, ⟨hd, hdid⟩, rfl⟩, -, ⟨e, ⟨he, heid⟩, rfl⟩, hne⟩
    exact ⟨d, hd, e, he, hdid, heid, hne⟩
  · rintro ⟨d, hd, e, he, hdid, heid, hne⟩
    exact ⟨_, ⟨d, ⟨hd, hdid⟩, rfl⟩, _, ⟨e, ⟨he, heid⟩, rfl⟩, hne⟩

theorem mem_pathConflicts_iff {ds : List ResolvedDependency} {id : String} :
    (∃ conflict ∈ pathConflicts ds, conflict.dependencyId = id) ↔
      ∃ d ∈ ds, ∃ e ∈ ds, d.id = id ∧ e.id = id ∧ d.physicalPath ≠
        e.physicalPath := by
  rw [← two_le_length_pathsOf_iff]
  constructor
  · rintro ⟨conflict, hconflict, rfl⟩
    obtain ⟨other, -, hconflict⟩ := List.mem_flatMap.mp hconflict
    obtain ⟨hmany, heq⟩ := mem_pathConflictsOf hconflict
    rwa [heq]
  · intro hmany
    obtain ⟨d, hd, -, -, hdid, -, -⟩ := two_le_length_pathsOf_iff.mp hmany
    have hcount : 0 < ds.countP fun d => d.id == id :=
      List.countP_pos_iff.mpr ⟨d, hd, by simpa using hdid⟩
    have hconflict : pathConflictsOf ds id ≠ [] := by
      rw [pathConflictsOf, if_neg (Nat.not_lt.mpr hmany)]
      exact fun hnil =>
        Nat.pos_iff_ne_zero.mp hcount (List.replicate_eq_nil_iff _ |>.mp hnil)
    obtain ⟨conflict, hconflict⟩ := List.exists_mem_of_ne_nil _ hconflict
    have hid : id ∈ distinct (ds.map ResolvedDependency.id) :=
      mem_distinct.mpr (hdid ▸ List.mem_map_of_mem hd)
    exact ⟨conflict, List.mem_flatMap.mpr ⟨id, hid, hconflict⟩,
      (mem_pathConflictsOf hconflict).2⟩

theorem kind_of_mem_pathConflicts {ds : List ResolvedDependency}
    {conflict : Conflict} (h : conflict ∈ pathConflicts ds) :
    conflict.kind = .pathConflict := by
  obtain ⟨id, -, h⟩ := List.mem_flatMap.mp h
  unfold pathConflictsOf at h
  dsimp only at h
  split at h
  · cases h
  · rw [List.eq_of_mem_replicate h]
    rfl

/-! ## Entries one by one -/

def joinGroup (d : ResolvedDependency) :
    List (String × List ResolvedDependency) →
    List (String × List ResolvedDependency)
  | [] => [(d.id, [d])]
  | (id, members) :: rest =>
      if id = d.id then (id, members ++ [d]) :: rest
      else (id, members) :: joinGroup d rest

def groups (ds : List ResolvedDependency) :
    List (String × List ResolvedDependency) :=
  ds.foldl (fun known d => joinGroup d known) []

def groupPaths (members : List ResolvedDependency) : List String :=
  members.foldl (fun paths d =>
    if d.physicalPath ∈ paths then paths else paths ++ [d.physicalPath]) []

def groupConflicts (id : String) (members : List ResolvedDependency) :
    List Conflict :=
  let paths := groupPaths members
  if paths.length < 2 then []
  else members.map fun _ =>
    .ofKind id .pathConflict
      ("'" ++ id ++ "' resolves to " ++ toString paths.length ++
        " different paths") paths

theorem groupPaths_eq (members : List ResolvedDependency) :
    groupPaths members =
      distinct (members.map ResolvedDependency.physicalPath) := by
  unfold groupPaths
  induction members using List.reverseRecOn with
  | nil => rfl
  | append_singleton members d ih =>
      rw [List.foldl_append, ih, List.map_append, List.map_singleton,
        distinct_concat]
      simp only [List.foldl_cons, List.foldl_nil, mem_distinct]

theorem joinGroup_of_mem {d : ResolvedDependency} {ids : List String}
    {members : String → List ResolvedDependency} (hnodup : ids.Nodup)
    (hid : d.id ∈ ids) :
    joinGroup d (ids.map fun id => (id, members id)) =
      ids.map fun id => (id, members id ++ if d.id = id then [d] else []) := by
  induction ids with
  | nil => cases hid
  | cons first rest ih =>
      obtain ⟨hnew, hrest⟩ := List.nodup_cons.mp hnodup
      rw [List.map_cons, List.map_cons, joinGroup]
      by_cases hfirst : first = d.id
      · rw [if_pos hfirst, if_pos hfirst.symm]
        refine congrArg _ (List.map_congr_left fun id hmem => ?_)
        have hne : d.id ≠ id := fun heq => hnew (hfirst.trans heq ▸ hmem)
        rw [if_neg hne, List.append_nil]
      · have hlater := (List.mem_cons.mp hid).resolve_left (Ne.symm hfirst)
        rw [if_neg hfirst, if_neg (Ne.symm hfirst), List.append_nil,
          ih hrest hlater]

theorem joinGroup_of_notMem {d : ResolvedDependency} {ids : List String}
    {members : String → List ResolvedDependency} (hid : d.id ∉ ids) :
    joinGroup d (ids.map fun id => (id, members id)) =
      (ids.map fun id => (id, members id)) ++ [(d.id, [d])] := by
  induction ids with
  | nil => rfl
  | cons first rest ih =>
      obtain ⟨hne, hrest⟩ := List.ne_and_not_mem_of_not_mem_cons hid
      rw [List.map_cons, joinGroup, if_neg (Ne.symm hne), ih hrest]
      rfl

theorem groups_eq (ds : List ResolvedDependency) :
    groups ds = (distinct (ds.map ResolvedDependency.id)).map fun id =>
      (id, ds.filter fun d => d.id == id) := by
  unfold groups
  induction ds using List.reverseRecOn with
  | nil => rfl
  | append_singleton ds d ih =>
      rw [List.foldl_append, ih, List.map_append, List.map_singleton,
        distinct_concat]
      simp only [List.foldl_cons, List.foldl_nil, List.filter_append]
      split
      · next hknown =>
          rw [joinGroup_of_mem (nodup_distinct _) (mem_distinct.mpr hknown)]
          simp [List.filter_cons]
      · next hnew =>
          have hnone : (ds.filter fun e => e.id == d.id) = [] := by
            simpa [List.filter_eq_nil_iff] using hnew
          rw [joinGroup_of_notMem (mt mem_distinct.mp hnew), List.map_append]
          refine congrArg₂ _ (List.map_congr_left fun id hid => ?_)
            (by simp [hnone])
          have hne : d.id ≠ id := fun heq => hnew (heq ▸ mem_distinct.mp hid)
          simp [hne]

/-- Whether groups are formed on the way or looked up id by id, the conflicts
are the same. -/
theorem pathConflicts_eq_groups (ds : List ResolvedDependency) :
    pathConflicts ds = (groups ds).flatMap fun (id, members) =>
      groupConflicts id members := by
  rw [groups_eq, pathConflicts, List.flatMap_map]
  refine List.flatMap_congr fun id _ => ?_
  dsimp only
  rw [groupConflicts, groupPaths_eq, pathConflictsOf, pathsOf, List.map_const',
    List.countP_eq_length_filter]

/-! ## Ids in conflict -/

/-- The ids of entries with different paths, each where it occurs first. -/
structure InConflict (ds : List ResolvedDependency) (ids : List String) :
    Prop where
  nodup : ids.Nodup
  mem_iff : ∀ id, id ∈ ids ↔
    ∃ d ∈ ds, ∃ e ∈ ds, d.id = id ∧ e.id = id ∧ d.physicalPath ≠ e.physicalPath
  inOrder : ids.Pairwise fun a b =>
    (ds.map ResolvedDependency.id).idxOf a <
      (ds.map ResolvedDependency.id).idxOf b

def conflictIds (ds : List ResolvedDependency) : List String :=
  (distinct (ds.map ResolvedDependency.id)).filter fun id =>
    2 ≤ (pathsOf ds id).length

theorem inConflict_conflictIds (ds : List ResolvedDependency) :
    InConflict ds (conflictIds ds) := by
  have hids := firstOccurrences_distinct (ds.map ResolvedDependency.id)
  refine ⟨hids.nodup.filter _, fun id => ?_, hids.inOrder.filter _⟩
  rw [conflictIds, List.mem_filter, hids.mem_iff, decide_eq_true_iff,
    two_le_length_pathsOf_iff]
  refine and_iff_right_of_imp ?_
  rintro ⟨d, hd, -, -, rfl, -⟩
  exact List.mem_map_of_mem hd

theorem pathConflicts_eq (ds : List ResolvedDependency) :
    pathConflicts ds = (conflictIds ds).flatMap fun id =>
      List.replicate (ds.countP fun d => d.id == id)
        (.ofKind id .pathConflict ("'" ++ id ++ "' resolves to " ++
          toString (pathsOf ds id).length ++ " different paths")
            (pathsOf ds id)) := by
  rw [pathConflicts, conflictIds]
  induction distinct (ds.map ResolvedDependency.id) with
  | nil => rfl
  | cons id rest ih =>
      rw [List.flatMap_cons, List.filter_cons, ih, pathConflictsOf]
      by_cases hmany : 2 ≤ (pathsOf ds id).length
      · rw [if_neg (Nat.not_lt.mpr hmany), if_pos (decide_eq_true hmany),
          List.flatMap_cons]
      · rw [if_pos (Nat.lt_of_not_le hmany), if_neg (by simpa using hmany),
          List.nil_append]

/-- The conflicts on paths stand in groups: a group for each id with several
paths, in the order of the first entries, and in it a conflict for each entry of
the id, with the paths of the id in the order in which they occur first. -/
def Grouped (ds : List ResolvedDependency) (conflicts : List Conflict) : Prop :=
  ∃ (ids : List String) (paths : String → List String), InConflict ds ids ∧
    (∀ id, FirstOccurrences
      ((ds.filter fun d => d.id == id).map ResolvedDependency.physicalPath)
      (paths id)) ∧
    conflicts = ids.flatMap fun id =>
      List.replicate (ds.countP fun d => d.id == id)
        (.ofKind id .pathConflict ("'" ++ id ++ "' resolves to " ++
          toString (paths id).length ++ " different paths") (paths id))

theorem grouped_pathConflicts (ds : List ResolvedDependency) :
    Grouped ds (pathConflicts ds) :=
  ⟨conflictIds ds, pathsOf ds, inConflict_conflictIds ds,
    fun _ => firstOccurrences_distinct _, pathConflicts_eq ds⟩

end Resolution

end Workflows
