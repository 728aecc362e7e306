import Mathlib.Data.List.Basic
import Workflows.Proofs.Resolution.Accounts
import Workflows.Proofs.Resolution.Location

/-!
# Path conflicts and places

Entries of one id are in conflict as soon as their paths are written
differently.  Where they are at different places the paths do differ, but paths
that differ may lead to one place: a path can be written in several ways, and
the path of the conventional place, which has the base in front, can be given
without the base.
-/

open Workflows.Path

namespace Workflows.Resolution

/-! ## Conflicts of a resolution -/

theorem conflictsOfKind_pathConflict {c : Config} {files : FileTree}
    {w : Workflow} {table : AnswerTable} {r : ResolutionResult}
    (h : (resolveWorkflow c files w).given table = .ok r) :
    r.conflictsOfKind .pathConflict = pathConflicts r.dependencies := by
  obtain ⟨loaded, invalid, -, -, hnested, -, -, hconflicts⟩ := exists_parts h
  obtain ⟨-, rfl, -⟩ := nestedOf_eq_ok hnested
  rw [conflictsOfKind_eq_append hconflicts]
  simp

/-! ## Paths that differ and lead to one place -/

/-- The paths of two entries are written differently and lead to one place: one
path with slashes or points that do not count, two given paths of which one
begins with a point that is lost under the base, an absolute path and one that
leads there from the base, or the conventional place and a given path that leads
there from the base. -/
inductive Respelled (c : Config) (d e : ResolvedDependency) : Prop
  | redundant (hne : d.physicalPath ≠ e.physicalPath)
      (h : components d.physicalPath = components e.physicalPath)
  | pointed (hbase : c.basePath ≠ "") (hd : isConventional c d = false)
      (he : isConventional c e = false)
      (hdrelative : isAbsolute d.physicalPath.toList = false)
      (herelative : isAbsolute e.physicalPath.toList = false)
      (hpoint : components d.physicalPath =
        .current :: components e.physicalPath)
  | rooted (hd : isConventional c d = false) (he : isConventional c e = false)
      (hdabsolute : isAbsolute d.physicalPath.toList = true)
      (herelative : isAbsolute e.physicalPath.toList = false)
      (h : components d.physicalPath = components (c.underBase e.physicalPath))
  | conventional (hd : isConventional c d = true)
      (he : isConventional c e = false) (h : components d.physicalPath =
        components (c.underBase e.physicalPath))

section Places

variable {c : Config} {d e : ResolvedDependency}

theorem components_locate (h : isConventional c d = true) :
    components (locate c d) = components d.physicalPath := by
  rw [locate, if_pos h]
  exact (samePlace_iff.mp h).symm

theorem locate_of_not_conventional (h : isConventional c d = false) :
    locate c d = c.underBase d.physicalPath := by
  rw [locate, h]
  rfl

theorem components_eq_or_of_innerOf_eq {p q : String}
    (hp : isAbsolute p.toList = false) (hq : isAbsolute q.toList = false)
    (h : innerOf p.toList = innerOf q.toList) :
    components p = components q ∨ components p = .current :: components q ∨
      components q = .current :: components p := by
  rw [components, components, componentsOf_eq, componentsOf_eq, h]
  rcases leadOf_relative hp with hpLead | hpLead <;>
    rcases leadOf_relative hq with hqLead | hqLead <;> rw [hpLead, hqLead]
  · exact .inl rfl
  · exact .inr (.inr rfl)
  · exact .inr (.inl rfl)
  · exact .inl rfl

theorem innerOf_eq_of_point {p q : String}
    (h : components p = .current :: components q) :
    innerOf p.toList = innerOf q.toList := by
  rw [components, components, componentsOf_eq, componentsOf_eq] at h
  have hlead : leadOf p.toList = .current :: leadOf q.toList := by
    have hstart := congrArg (List.takeWhile Component.isLead) h
    rwa [takeWhile_isLead, List.takeWhile_cons_of_pos rfl,
      takeWhile_isLead] at hstart
  rw [hlead, List.cons_append] at h
  exact List.append_cancel_left (List.cons.inj h).2

theorem components_underBase_congr {p q : String}
    (h : components p = components q) :
    components (c.underBase p) = components (c.underBase q) := by
  have hparts : leadOf p.toList = leadOf q.toList ∧ innerOf p.toList =
      innerOf q.toList := by
    rw [components, components, componentsOf_eq, componentsOf_eq] at h
    have hlead := leadOf_eq h
    rw [hlead] at h
    exact ⟨hlead, List.append_cancel_left h⟩
  obtain ⟨hlead, hinner⟩ := hparts
  have habsolute := isAbsolute_eq_of_leadOf_eq hlead
  rw [Config.underBase, Config.underBase]
  cases hp : isAbsolute p.toList with
  | true => rw [join_of_absolute hp, join_of_absolute (habsolute ▸ hp), h]
  | false =>
      by_cases hbase : c.basePath = ""
      · rw [hbase, join_empty, join_empty, h]
      · rw [components_join hbase hp, components_join hbase (habsolute ▸ hp),
          hinner]

theorem Respelled.ne (hkind : d.kind = e.kind) (hname : d.name = e.name)
    (h : Respelled c d e) : d.physicalPath ≠ e.physicalPath := by
  intro heq
  cases h with
  | redundant hne _ => exact hne heq
  | pointed _ _ _ _ _ hpoint =>
      rw [heq] at hpoint
      exact List.cons_ne_self _ _ hpoint.symm
  | rooted _ _ hdabsolute herelative _ =>
      rw [heq, herelative] at hdabsolute
      cases hdabsolute
  | conventional hd he _ =>
      rw [isConventional, hkind, hname, heq] at hd
      rw [isConventional, hd] at he
      cases he

theorem Respelled.samePlace (hkind : d.kind = e.kind) (hname : d.name = e.name)
    (h : Respelled c d e) : samePlace (locate c d) (locate c e) = true := by
  rw [samePlace_iff]
  cases h with
  | redundant _ h =>
      have hconventional : isConventional c d = isConventional c e := by
        rw [isConventional, isConventional, Path.samePlace, Path.samePlace, h,
          hkind, hname]
      cases hd : isConventional c d with
      | true =>
          rw [components_locate hd, components_locate (hconventional ▸ hd), h]
      | false =>
          rw [locate_of_not_conventional hd,
            locate_of_not_conventional (hconventional ▸ hd)]
          exact components_underBase_congr h
  | pointed hbase hd he hdrelative herelative hpoint =>
      rw [locate_of_not_conventional hd, locate_of_not_conventional he,
        Config.underBase, Config.underBase, components_join hbase hdrelative,
        components_join hbase herelative, innerOf_eq_of_point hpoint]
  | rooted hd he hdabsolute _ h =>
      rw [locate_of_not_conventional hd, locate_of_not_conventional he,
        Config.underBase, join_of_absolute hdabsolute, h]
  | conventional hd he h =>
      rw [components_locate hd, locate_of_not_conventional he, h]

theorem respelled_of_given (hne : d.physicalPath ≠ e.physicalPath)
    (hd : isConventional c d = false) (he : isConventional c e = false)
    (h : components (c.underBase d.physicalPath) =
      components (c.underBase e.physicalPath)) :
    Respelled c d e ∨ Respelled c e d := by
  rw [Config.underBase, Config.underBase] at h
  cases hp : isAbsolute d.physicalPath.toList <;> cases hq :
    isAbsolute e.physicalPath.toList
  · by_cases hbase : c.basePath = ""
    · rw [hbase, join_empty, join_empty] at h
      exact .inl (.redundant hne h)
    · rw [components_join hbase hp, components_join hbase hq] at h
      rcases components_eq_or_of_innerOf_eq hp hq
          (List.append_cancel_left h) with
        hsame | hpoint | hpoint
      · exact .inl (.redundant hne hsame)
      · exact .inl (.pointed hbase hd he hp hq hpoint)
      · exact .inr (.pointed hbase he hd hq hp hpoint)
  · rw [join_of_absolute hq] at h
    exact .inr (.rooted he hd hq hp h.symm)
  · rw [join_of_absolute hp] at h
    exact .inl (.rooted hd he hp hq h)
  · rw [join_of_absolute hp, join_of_absolute hq] at h
    exact .inl (.redundant hne h)

/-- There is no other way in which paths that differ lead to one place. -/
theorem respelled_of_samePlace (hne : d.physicalPath ≠ e.physicalPath)
    (h : samePlace (locate c d) (locate c e) = true) :
    Respelled c d e ∨ Respelled c e d := by
  rw [samePlace_iff] at h
  cases hd : isConventional c d <;> cases he : isConventional c e
  · rw [locate_of_not_conventional hd, locate_of_not_conventional he] at h
    exact respelled_of_given hne hd he h
  · rw [locate_of_not_conventional hd, components_locate he] at h
    exact .inr (.conventional he hd h.symm)
  · rw [components_locate hd, locate_of_not_conventional he] at h
    exact .inl (.conventional hd he h)
  · rw [components_locate hd, components_locate he] at h
    exact .inl (.redundant hne h)

theorem ne_of_not_samePlace (hkind : d.kind = e.kind) (hname : d.name = e.name)
    (h : samePlace (locate c d) (locate c e) = false) :
    d.physicalPath ≠ e.physicalPath := by
  intro heq
  have hlocate : locate c d = locate c e := by
    rw [locate, locate, isConventional, isConventional, hkind, hname, heq]
  rw [hlocate, samePlace_iff.mpr rfl] at h
  cases h

end Places

/-! ## The conflicts of a resolution -/

theorem key_of_mem_resolveEach {c : Config} {files : FileTree} {cache : Cache}
    {ds : List Dependency} {entries : List ResolvedDependency}
    (hcoherent : cache.AllCoherent)
    (h : (resolveEach c files ds).given cache.answers = .ok entries) :
    ∀ entry ∈ entries, entry.id = Reference.key entry.kind entry.name := by
  have hids := coherent_resolveEach hcoherent h
  clear h
  induction hids with
  | nil => exact fun _ h => absurd h List.not_mem_nil
  | cons hentry _ ih =>
      exact List.forall_mem_cons.mpr ⟨hentry.id_eq.trans hentry.key_eq, ih⟩

/-- An id is in conflict exactly if two of its entries are at different places,
or at one place that is written in two of the ways told apart above. -/
theorem pathConflict_iff (c : Config) (files : FileTree) (w : Workflow)
    (cache : Cache) (hreached : cache.Reached c) (r : ResolutionResult)
    (left : Cache) (h : (resolveWorkflow c files w).onCache cache =
      (.ok r, left)) (id : String) :
    ((∃ conflict ∈ r.conflictsOfKind .pathConflict,
      conflict.dependencyId = id) ↔
      ∃ d ∈ r.dependencies, ∃ e ∈ r.dependencies, d.id = id ∧ e.id = id ∧
        (samePlace (locate c d) (locate c e) = false ∨ Respelled c d e)) ∧
    ∀ d ∈ r.dependencies, ∀ e ∈ r.dependencies, d.id = id → e.id = id →
      Respelled c d e → samePlace (locate c d) (locate c e) = true := by
  have hgiven := result_onCache (asksOn_resolveWorkflow c files w) cache
  rw [h] at hgiven
  obtain ⟨-, -, hdependencies, -⟩ := exists_parts hgiven.symm
  have hkeys := key_of_mem_resolveEach hreached.allCoherent hdependencies
  have hnamed : ∀ d ∈ r.dependencies, ∀ e ∈ r.dependencies,
      d.id = id → e.id = id →
      d.kind = e.kind ∧ d.name = e.name := by
    intro d hd e he hdid heid
    refine Reference.key_inj.mp ?_
    rw [← hkeys d hd, ← hkeys e he, hdid, heid]
  rw [conflictsOfKind_pathConflict hgiven.symm, mem_pathConflicts_iff]
  refine ⟨⟨?_, ?_⟩, fun d hd e he hdid heid hrespelled => ?_⟩
  · rintro ⟨d, hd, e, he, hdid, heid, hne⟩
    cases hplace : samePlace (locate c d) (locate c e) with
    | false => exact ⟨d, hd, e, he, hdid, heid, .inl hplace⟩
    | true =>
        rcases respelled_of_samePlace hne hplace with hrespelled | hrespelled
        · exact ⟨d, hd, e, he, hdid, heid, .inr hrespelled⟩
        · exact ⟨e, he, d, hd, heid, hdid, .inr hrespelled⟩
  · rintro ⟨d, hd, e, he, hdid, heid, hdiffer⟩
    obtain ⟨hkind, hname⟩ := hnamed d hd e he hdid heid
    refine ⟨d, hd, e, he, hdid, heid, ?_⟩
    rcases hdiffer with hplace | hrespelled
    · exact ne_of_not_samePlace hkind hname hplace
    · exact hrespelled.ne hkind hname
  · obtain ⟨hkind, hname⟩ := hnamed d hd e he hdid heid
    exact hrespelled.samePlace hkind hname

/-! ## One place written in two ways -/

def agentInPlace : FileTree :=
  FileTree.empty.plant ["work", "extensions", "agents", "x.md"]
    (.newFile (.text "# x\n"))

def callerOfOneAgent : Workflow :=
  { callerOfA with dependencies := [Dependency.ofName .agent "x",
      (Dependency.ofName .agent "x").withPath "extensions/agents/x.md"] }

def agentFound (path : String) : ResolvedDependency where
  id := "agent:x"
  kind := .agent
  name := "x"
  logicalReference := "agent:x"
  physicalPath := path
  resolved := true
  error := none
  errorCode := none
  presence := ⟨true, true, none⟩

theorem resolveWorkflow_callerOfOneAgent :
    ∃ r left,
      (resolveWorkflow .standard agentInPlace callerOfOneAgent).onCache .empty =
        (.ok r, left) ∧
      r.dependencies =
        [agentFound "./extensions/agents/x.md",
          agentFound "extensions/agents/x.md"] ∧
      (r.conflictsOfKind .pathConflict).map Conflict.dependencyId =
        ["agent:x", "agent:x"] := by
  have hresult :
      ((resolveWorkflow .standard agentInPlace callerOfOneAgent).onCache
        .empty).1.map (fun r => (r.dependencies,
        (r.conflictsOfKind .pathConflict).map Conflict.dependencyId)) =
      .ok ([agentFound "./extensions/agents/x.md",
        agentFound "extensions/agents/x.md"],
        ["agent:x", "agent:x"]) := by
    decide +kernel
  rcases hrun :
      (resolveWorkflow .standard agentInPlace callerOfOneAgent).onCache
        .empty with
    ⟨cause | r, left⟩ <;> rw [hrun] at hresult
  · cases hresult
  · obtain ⟨hdependencies, hconflicts⟩ := Prod.mk.inj (Except.ok.inj hresult)
    exact ⟨r, left, rfl, hdependencies, hconflicts⟩

theorem respelled_agentFound :
    Respelled .standard (agentFound "./extensions/agents/x.md")
    (agentFound "extensions/agents/x.md") :=
  .conventional (by decide +kernel) (by decide +kernel) (by decide +kernel)

theorem pathConflict_callerOfOneAgent :
    ∃ r left,
      (resolveWorkflow .standard agentInPlace callerOfOneAgent).onCache .empty =
        (.ok r, left) ∧
      (∃ conflict ∈ r.conflictsOfKind .pathConflict,
        conflict.dependencyId = "agent:x") ∧
      samePlace (locate .standard (agentFound "./extensions/agents/x.md"))
        (locate .standard (agentFound "extensions/agents/x.md")) = true := by
  obtain ⟨r, left, hrun, hdependencies, -⟩ := resolveWorkflow_callerOfOneAgent
  obtain ⟨hiff, hplace⟩ :=
    pathConflict_iff .standard agentInPlace callerOfOneAgent .empty .refl r left
    hrun "agent:x"
  rw [hdependencies] at hiff hplace
  have hfirst :
      agentFound "./extensions/agents/x.md" ∈
      [agentFound "./extensions/agents/x.md",
        agentFound "extensions/agents/x.md"] := by simp
  have hsecond :
      agentFound "extensions/agents/x.md" ∈
      [agentFound "./extensions/agents/x.md",
        agentFound "extensions/agents/x.md"] := by simp
  exact ⟨r, left, hrun,
    hiff.mpr ⟨_, hfirst, _, hsecond, rfl, rfl, .inr respelled_agentFound⟩,
    hplace _ hfirst _ hsecond rfl rfl respelled_agentFound⟩

theorem pathConflict_at_one_place :
    ¬ ∀ c files w r left, (resolveWorkflow c files w).onCache .empty =
      (.ok r, left) →
      ∀ conflict ∈ r.conflictsOfKind .pathConflict,
        ∃ d ∈ r.dependencies, ∃ e ∈ r.dependencies,
          d.id = conflict.dependencyId ∧
            e.id = conflict.dependencyId ∧ locate c d ≠ locate c e := by
  intro h
  obtain ⟨r, left, hrun, hdependencies, hconflicts⟩ :=
    resolveWorkflow_callerOfOneAgent
  have hmem :
      "agent:x" ∈ (r.conflictsOfKind .pathConflict).map
        Conflict.dependencyId := by
    rw [hconflicts]
    exact List.mem_cons_self
  obtain ⟨conflict, hconflict, -⟩ := List.mem_map.mp hmem
  obtain ⟨d, hd, e, he, -, -, hne⟩ := h _ _ _ r left hrun conflict hconflict
  have hall : ∀ d ∈ [agentFound "./extensions/agents/x.md",
      agentFound "extensions/agents/x.md"],
      locate .standard d = "./extensions/agents/x.md" := by
    decide +kernel
  rw [hdependencies] at hd he
  exact hne ((hall d hd).trans (hall e he).symm)

end Workflows.Resolution
