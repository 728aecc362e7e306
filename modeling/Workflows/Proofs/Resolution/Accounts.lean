import Workflows.Proofs.Resolution.Answers
import Workflows.Proofs.Resolution.ConflictGroups
import Workflows.Proofs.Resolution.WorkflowCycles

/-!
# What a resolution accounts for

The result for a workflow puts each of its dependencies where it belongs.  Those
that are not resolved are missing; of those that are resolved workflows each
reference has either nested dependencies or a conflict, by the document of its
first entry; each cycle has a conflict of its own.  All that is resolved on the
way is what the cache and the files said at first.
-/

namespace Workflows.Resolution

variable {c : Config} {files : FileTree}

/-! ## Requests of a resolution -/

section Asking

open Resolving

theorem asksOn_resolveDependency (c : Config) (files : FileTree)
    (d : Dependency) :
    (resolveDependency c files d).AsksOn c files := ⟨rfl, rfl, fun _ => trivial⟩

theorem asksOn_resolveEach (c : Config) (files : FileTree)
    (ds : List Dependency) :
    (resolveEach c files ds).AsksOn c files :=
  .mapM (asksOn_resolveDependency c files) ds

theorem asksOn_load (c : Config) (files : FileTree) (d : Dependency) :
    (Walk.load c files d).AsksOn c files := by
  rw [Walk.load_eq]
  exact ⟨rfl, rfl, fun _ => trivial⟩

theorem asksOn_descend (c : Config) (files : FileTree) (depth : Nat)
    (walk : Walk) (frontier : List Dependency) :
    (Walk.descend c files depth walk frontier).AsksOn c files := by
  induction depth generalizing walk frontier with
  | zero => exact trivial
  | succ depth ih =>
      by_cases hempty : frontier = []
      · subst hempty
        exact trivial
      · rw [Walk.descend_succ hempty]
        exact (AsksOn.mapM (asksOn_load c files) _).bind fun _ => ih _ _

theorem asksOn_workflowCycles (c : Config) (files : FileTree) (w : Workflow) :
    (workflowCycles c files w).AsksOn c files :=
  (asksOn_descend c files c.maxDepth _ _).bind fun _ => trivial

theorem asksOn_nestedOf (c : Config) (files : FileTree)
    (loaded : List (ResolvedDependency × Except InvalidDocument Workflow)) :
    (nestedOf c files loaded).AsksOn c files := by
  induction loaded with
  | nil => exact trivial
  | cons first rest ih =>
      obtain ⟨d, cause | child⟩ := first
      · exact ih.bind fun _ => trivial
      · exact (asksOn_resolveEach c files _).bind fun _ => ih.bind fun _ =>
          trivial

theorem asksOn_resolveNested (c : Config) (files : FileTree)
    (ds : List ResolvedDependency) :
    (resolveNested c files ds).AsksOn c files := by
  have hloaded :
      (ofExcept (loadAll c files (resolvedWorkflows ds))).AsksOn c files :=
    trivial
  exact hloaded.bind fun loaded => asksOn_nestedOf c files loaded

theorem asksOn_resolveWorkflow (c : Config) (files : FileTree) (w : Workflow) :
    (resolveWorkflow c files w).AsksOn c files :=
  (asksOn_resolveEach c files _).bind fun _ =>
    (asksOn_resolveNested c files _).bind fun _ =>
      (asksOn_workflowCycles c files w).bind fun _ => trivial

theorem result_onCache {α : Type} {work : Resolving α} (h : work.AsksOn c files)
    (cache : Cache) : (work.onCache cache).1 = work.given cache.answers :=
  (onCache_eq_given h (.refl c files cache)).1

end Asking

/-! ## Lists with keys -/

section Keys

variable {α β κ : Type} {key : α → κ} {key' : β → κ}
  {pick : α → Option β} {items : List α}

theorem map_filterMap_sublist
    (hkey : ∀ x ∈ items, ∀ y, pick x = some y → key' y = key x) :
    ((items.filterMap pick).map key').Sublist (items.map key) := by
  induction items with
  | nil => exact .slnil
  | cons x rest ih =>
      obtain ⟨hx, hrest⟩ := List.forall_mem_cons.mp hkey
      rw [List.filterMap_cons]
      cases hpick : pick x with
      | none => exact (ih hrest).cons _
      | some y =>
          rw [List.map_cons, hx y hpick]
          exact (ih hrest).cons_cons _

theorem filter_filterMap_of_nodup [DecidableEq κ]
    (hkey : ∀ x ∈ items, ∀ y, pick x = some y → key' y = key x)
    (hnodup : (items.map key).Nodup) (k : κ) :
    (items.filterMap pick).filter (fun y => key' y == k) =
      ((items.find? fun x => key x == k).bind pick).toList := by
  induction items with
  | nil => rfl
  | cons x rest ih =>
      obtain ⟨hx, hrest⟩ := List.forall_mem_cons.mp hkey
      obtain ⟨hnew, hnodup⟩ := List.nodup_cons.mp hnodup
      have hlater := ih hrest hnodup
      by_cases heq : key x = k
      · have hnone : rest.find? (fun x => key x == k) = none := by
          refine List.find?_eq_none.mpr fun z hz hzk => hnew ?_
          rw [heq, ← beq_iff_eq.mp hzk]
          exact List.mem_map_of_mem hz
        rw [hnone] at hlater
        rw [List.find?_cons_of_pos (by simpa using heq), List.filterMap_cons]
        cases hpick : pick x with
        | none => simpa [hpick] using hlater
        | some y =>
            have hy : (key' y == k) = true := by rw [hx y hpick, heq, BEq.rfl]
            simpa [hpick, hy] using hlater
      · rw [List.find?_cons_of_neg (by simpa using heq), List.filterMap_cons]
        cases hpick : pick x with
        | none => exact hlater
        | some y =>
            have hy : (key' y == k) = false := by
              rw [hx y hpick]
              exact beq_false_of_ne heq
            rw [List.filter_cons, hy]
            exact hlater

end Keys

/-! ## Entries -/

section Entries

variable {cache : Cache} {ds : List Dependency}
  {entries : List ResolvedDependency}

theorem given_resolveEach (table : AnswerTable) (ds : List Dependency) :
    (resolveEach c files ds).given table =
      ds.mapM fun d => table (requestOf c files d) := by
  rw [resolveEach, Resolving.given_mapM]
  refine congrArg ds.mapM (funext fun d => ?_)
  change table (requestOf c files d) >>= pure = _
  exact bind_pure _

theorem coherent_resolveEach (hcoherent : cache.AllCoherent)
    (h : (resolveEach c files ds).given cache.answers = .ok entries) :
    List.Forall₂ (fun d entry => Coherent (requestOf c files d).key entry) ds
      entries := by
  rw [given_resolveEach] at h
  exact (forall₂_of_mapM h).imp fun d entry hentry => hcoherent.answers hentry

theorem map_id_resolveEach (hcoherent : cache.AllCoherent)
    (h : (resolveEach c files ds).given cache.answers = .ok entries) :
    entries.map ResolvedDependency.id = ds.map Dependency.key := by
  have hids := coherent_resolveEach hcoherent h
  clear h
  induction hids with
  | nil => rfl
  | cons hentry _ ih =>
      rw [List.map_cons, List.map_cons, ih, hentry.id_eq]
      rfl

theorem logicalReference_resolveEach (hcoherent : cache.AllCoherent)
    (h : (resolveEach c files ds).given cache.answers = .ok entries) :
    ∀ entry ∈ entries, entry.id = entry.logicalReference := by
  have hids := coherent_resolveEach hcoherent h
  clear h
  induction hids with
  | nil => exact fun _ h => absurd h List.not_mem_nil
  | cons hentry _ ih =>
      exact List.forall_mem_cons.mpr
        ⟨hentry.id_eq.trans hentry.logicalReference_eq.symm, ih⟩

end Entries

/-! ## Parts of a resolution -/

section Parts

variable {table : AnswerTable} {w : Workflow} {r : ResolutionResult}

theorem exists_parts (h : (resolveWorkflow c files w).given table = .ok r) :
    ∃ loaded invalid,
      (resolveEach c files w.dependencies).given table = .ok r.dependencies ∧
      loadAll c files (resolvedWorkflows r.dependencies) = .ok loaded ∧
      (nestedOf c files loaded).given table = .ok (r.nested, invalid) ∧
      (workflowCycles c files w).given table = .ok r.cycles ∧
      r.missing = r.dependencies.filter (fun d => !d.resolved) ∧
      r.conflicts =
        pathConflicts r.dependencies ++ invalid ++
          r.cycles.map circularConflict := by
  rw [resolveWorkflow, Resolving.given_bind] at h
  obtain ⟨dependencies, hdependencies, h⟩ := exists_of_bind_ok h
  rw [Resolving.given_bind] at h
  obtain ⟨⟨nested, invalid⟩, hnested, h⟩ := exists_of_bind_ok h
  rw [Resolving.given_bind] at h
  obtain ⟨cycles, hcycles, h⟩ := exists_of_bind_ok h
  rw [resolveNested, Resolving.given_bind] at hnested
  obtain ⟨loaded, hloaded, hnested⟩ := exists_of_bind_ok hnested
  cases h
  exact ⟨loaded, invalid, hdependencies, hloaded, hnested, hcycles, rfl, rfl⟩

def nestedEntry (c : Config) (files : FileTree) (table : AnswerTable) :
    ResolvedDependency × Except InvalidDocument Workflow →
      Option (String × List ResolvedDependency)
  | (d, .ok child) =>
      some (d.logicalReference,
        ((resolveEach c files child.dependencies).given table).toOption.getD [])
  | (_, .error _) => none

def documentConflict :
    ResolvedDependency × Except InvalidDocument Workflow → Option Conflict
  | (_, .ok _) => none
  | (d, .error cause) => some (invalidConflict d cause)

theorem loadAll_eq_ok {ds : List ResolvedDependency}
    {loaded : List (ResolvedDependency × Except InvalidDocument Workflow)}
    (h : loadAll c files ds = .ok loaded) :
    loaded.map Prod.fst = ds ∧ ∀ x ∈ loaded,
      documentOf c files x.1 = .ok x.2 := by
  induction ds generalizing loaded with
  | nil =>
      cases h
      exact ⟨rfl, fun _ h => absurd h List.not_mem_nil⟩
  | cons d rest ih =>
      rw [loadAll] at h
      obtain ⟨document, hdocument, h⟩ := exists_of_bind_ok h
      obtain ⟨others, hothers, h⟩ := exists_of_bind_ok h
      cases h
      obtain ⟨hds, hdocuments⟩ := ih hothers
      exact ⟨congrArg (d :: ·) hds,
        List.forall_mem_cons.mpr ⟨hdocument, hdocuments⟩⟩

theorem nestedOf_eq_ok
    {loaded : List (ResolvedDependency × Except InvalidDocument Workflow)}
    {nested : Nested} {invalid : List Conflict}
    (h : (nestedOf c files loaded).given table = .ok (nested, invalid)) :
    nested = loaded.filterMap (nestedEntry c files table) ∧
      invalid = loaded.filterMap documentConflict ∧
      ∀ d child, (d, .ok child) ∈ loaded →
        ∃ ds, (resolveEach c files child.dependencies).given table =
          .ok ds := by
  induction loaded generalizing nested invalid with
  | nil =>
      cases h
      exact ⟨rfl, rfl, fun _ _ h => absurd h List.not_mem_nil⟩
  | cons first rest ih =>
      obtain ⟨d, cause | child⟩ := first
      · rw [nestedOf, Resolving.given_bind] at h
        obtain ⟨⟨others, conflicts⟩, hrest, h⟩ := exists_of_bind_ok h
        cases h
        obtain ⟨rfl, rfl, hchildren⟩ := ih hrest
        refine ⟨rfl, rfl, fun e child he => hchildren e child ?_⟩
        exact (List.mem_cons.mp he).resolve_left (by simp)
      · rw [nestedOf, Resolving.given_bind] at h
        obtain ⟨ds, hds, h⟩ := exists_of_bind_ok h
        rw [Resolving.given_bind] at h
        obtain ⟨⟨others, conflicts⟩, hrest, h⟩ := exists_of_bind_ok h
        cases h
        obtain ⟨rfl, rfl, hchildren⟩ := ih hrest
        refine ⟨?_, rfl, fun e other he => ?_⟩
        · rw [List.filterMap_cons, nestedEntry, hds]
          rfl
        · rcases List.mem_cons.mp he with heq | he
          · cases heq
            exact ⟨ds, hds⟩
          · exact hchildren e other he

end Parts

/-! ## First entries -/

def refersTo (ref : String) (d : ResolvedDependency) : Bool :=
  d.kind == .workflow && d.resolved && d.logicalReference == ref

theorem map_firstReferences (ds : List ResolvedDependency) :
    (firstReferences ds).map ResolvedDependency.logicalReference =
      distinct (ds.map ResolvedDependency.logicalReference) := by
  induction ds with
  | nil => rfl
  | cons d rest ih =>
      rw [firstReferences, List.map_cons, List.map_cons, distinct, ← ih,
        List.filter_map]
      congr 2
      refine List.filter_congr fun e _ => ?_
      by_cases heq : e.logicalReference = d.logicalReference <;> simp [heq]

theorem find?_firstReferences (ref : String) (ds : List ResolvedDependency) :
    (firstReferences ds).find? (fun d => d.logicalReference == ref) =
      ds.find? fun d => d.logicalReference == ref := by
  induction ds with
  | nil => rfl
  | cons d rest ih =>
      by_cases heq : d.logicalReference = ref
      · simp [firstReferences, heq]
      · rw [firstReferences, List.find?_cons_of_neg (by simpa using heq),
          List.find?_cons_of_neg (by simpa using heq), ← ih, List.find?_filter]
        congr 1
        funext e
        by_cases he : e.logicalReference = ref <;> simp [he, Ne.symm heq]

theorem find?_resolvedWorkflows (ref : String) (ds : List ResolvedDependency) :
    (resolvedWorkflows ds).find? (fun d => d.logicalReference == ref) =
      ds.find? (refersTo ref) := by
  rw [resolvedWorkflows, find?_firstReferences, List.find?_filter]
  congr 1
  funext d
  exact Bool.eq_iff_iff.mpr (by simp [refersTo, and_assoc])

theorem sublist_firstReferences (ds : List ResolvedDependency) :
    (firstReferences ds).Sublist ds := by
  induction ds with
  | nil => exact .slnil
  | cons d rest ih => exact (List.filter_sublist.trans ih).cons_cons d

theorem sublist_resolvedWorkflows (ds : List ResolvedDependency) :
    (resolvedWorkflows ds).Sublist ds :=
  (sublist_firstReferences _).trans List.filter_sublist

/-! ## Documents under their references -/

section Loaded

variable {ds : List ResolvedDependency}
  {loaded : List (ResolvedDependency × Except InvalidDocument Workflow)}

theorem map_reference_loaded (h : loaded.map Prod.fst = resolvedWorkflows ds) :
    loaded.map (fun x => x.1.logicalReference) =
      distinct ((ds.filter fun d => d.kind == .workflow && d.resolved).map
        ResolvedDependency.logicalReference) := by
  rw [← map_firstReferences, ← resolvedWorkflows, ← h, List.map_map]
  rfl

theorem nodup_reference_loaded
    (h : loaded.map Prod.fst = resolvedWorkflows ds) :
    (loaded.map fun x => x.1.logicalReference).Nodup := by
  rw [map_reference_loaded h]
  exact nodup_distinct _

theorem find?_loaded (h : loaded.map Prod.fst = resolvedWorkflows ds)
    (ref : String) :
    (loaded.find? fun x => x.1.logicalReference == ref).map Prod.fst =
      ds.find? (refersTo ref) := by
  rw [← find?_resolvedWorkflows, ← h, List.find?_map]
  rfl

theorem reference_nestedEntry {table : AnswerTable}
    {x : ResolvedDependency × Except InvalidDocument Workflow}
    {entry : String × List ResolvedDependency}
    (h : nestedEntry c files table x = some entry) :
    entry.1 = x.1.logicalReference := by
  obtain ⟨d, cause | child⟩ := x <;> cases h
  rfl

theorem id_documentConflict
    {x : ResolvedDependency × Except InvalidDocument Workflow}
    {conflict : Conflict} (h : documentConflict x = some conflict) :
    conflict.dependencyId = x.1.id := by
  obtain ⟨d, cause | child⟩ := x <;> cases h
  rfl

end Loaded

/-! ## Conflicts by kind -/

theorem kind_of_documentConflict
    {x : ResolvedDependency × Except InvalidDocument Workflow}
    {conflict : Conflict} (h : documentConflict x = some conflict) :
    conflict.kind = .invalidDocument := by
  obtain ⟨d, cause | child⟩ := x <;> cases h
  rfl

theorem filter_kind {conflicts : List Conflict} {kind : ConflictKind}
    (h : ∀ e ∈ conflicts, e.kind = kind) (other : ConflictKind) :
    conflicts.filter (fun e => e.kind == other) =
      if kind = other then conflicts else [] := by
  split
  · next heq => exact List.filter_eq_self.mpr fun e he => by simp [h e he, heq]
  · next hne =>
      exact List.filter_eq_nil_iff.mpr fun e he => by simp [h e he, hne]

theorem conflictsOfKind_eq_append {r : ResolutionResult}
    {ds : List ResolvedDependency}
    {loaded : List (ResolvedDependency × Except InvalidDocument Workflow)}
    (h : r.conflicts = pathConflicts ds ++ loaded.filterMap documentConflict ++
      r.cycles.map circularConflict) (kind : ConflictKind) :
    r.conflictsOfKind kind =
      (if .pathConflict = kind then pathConflicts ds else []) ++
        (if .invalidDocument = kind then loaded.filterMap documentConflict
          else []) ++
        (if .circular = kind then r.cycles.map circularConflict else []) := by
  have hpath := filter_kind fun e (he : e ∈ pathConflicts ds) =>
    kind_of_mem_pathConflicts he
  have hinvalid : ∀ e ∈ loaded.filterMap documentConflict,
      e.kind = .invalidDocument := by
    intro e he
    obtain ⟨x, -, hx⟩ := List.mem_filterMap.mp he
    exact kind_of_documentConflict hx
  have hcircular : ∀ e ∈ r.cycles.map circularConflict, e.kind = .circular := by
    intro e he
    obtain ⟨cycle, -, rfl⟩ := List.mem_map.mp he
    rfl
  rw [ResolutionResult.conflictsOfKind, h, List.filter_append,
    List.filter_append, hpath, filter_kind hinvalid, filter_kind hcircular]

theorem conflictsOfKind_eq {r : ResolutionResult} {ds : List ResolvedDependency}
    {loaded : List (ResolvedDependency × Except InvalidDocument Workflow)}
    (h : r.conflicts = pathConflicts ds ++ loaded.filterMap documentConflict ++
      r.cycles.map circularConflict) :
    r.conflictsOfKind .invalidDocument = loaded.filterMap documentConflict ∧
      r.conflictsOfKind .circular = r.cycles.map circularConflict := by
  constructor <;> rw [conflictsOfKind_eq_append h] <;> simp

/-! ## The account -/

def nestedUnder (r : ResolutionResult) (ref : String) :
    List (String × List ResolvedDependency) :=
  r.nested.filter fun entry => entry.1 == ref

def invalidUnder (r : ResolutionResult) (ref : String) : List Conflict :=
  (r.conflictsOfKind .invalidDocument).filter fun conflict =>
    conflict.dependencyId == ref

/-- What is answered for a workflow on a cache and files.  `refersTo ref` holds
of the entries that are resolved workflows under the reference, and the first of
these says which document is loaded. -/
structure Accounted (c : Config) (files : FileTree) (cache : Cache)
    (w : Workflow) (r : ResolutionResult) : Prop where
  dependencies :
    ((resolveEach c files w.dependencies).onCache cache).1 = .ok r.dependencies
  ids_eq : r.dependencies.map ResolvedDependency.id =
    w.dependencies.map Dependency.key
  missing_eq : r.missing = r.dependencies.filter fun d => !d.resolved
  of_first : ∀ ref d, r.dependencies.find? (refersTo ref) = some d →
    (∃ child ds, documentOf c files d = .ok (.ok child) ∧
      ((resolveEach c files child.dependencies).onCache cache).1 = .ok ds ∧
      nestedUnder r ref = [(ref, ds)] ∧ invalidUnder r ref = []) ∨
    (∃ cause, documentOf c files d = .ok (.error cause) ∧
      nestedUnder r ref = [] ∧ invalidUnder r ref = [invalidConflict d cause])
  of_none : ∀ ref, r.dependencies.find? (refersTo ref) = none →
    nestedUnder r ref = [] ∧ invalidUnder r ref = []
  conflicts_eq : r.conflicts = pathConflicts r.dependencies ++
    r.conflictsOfKind .invalidDocument ++ r.conflictsOfKind .circular
  grouped : Grouped r.dependencies (pathConflicts r.dependencies)
  invalid_in_order :
    ((r.conflictsOfKind .invalidDocument).map Conflict.dependencyId).Sublist
      (distinct ((r.dependencies.filter fun d =>
        d.kind == .workflow && d.resolved).map
        ResolvedDependency.logicalReference))
  cycles : ((workflowCycles c files w).onCache cache).1 = .ok r.cycles
  circular_details : (r.conflictsOfKind .circular).map Conflict.details =
    r.cycles

section Account

variable {cache : Cache} {r : ResolutionResult}
  {loaded : List (ResolvedDependency × Except InvalidDocument Workflow)}

theorem under_eq
    (hfirsts : loaded.map Prod.fst = resolvedWorkflows r.dependencies)
    (hids : ∀ x ∈ loaded, x.1.id = x.1.logicalReference)
    (hnested : r.nested = loaded.filterMap (nestedEntry c files cache.answers))
    (hinvalid : r.conflictsOfKind .invalidDocument =
      loaded.filterMap documentConflict) (ref : String) :
    nestedUnder r ref =
      ((loaded.find? fun x => x.1.logicalReference == ref).bind
        (nestedEntry c files cache.answers)).toList ∧
      invalidUnder r ref =
        ((loaded.find? fun x => x.1.logicalReference == ref).bind
          documentConflict).toList := by
  have hnodup := nodup_reference_loaded hfirsts
  rw [nestedUnder, hnested, invalidUnder, hinvalid]
  exact ⟨filter_filterMap_of_nodup (fun _ _ _ => reference_nestedEntry)
    hnodup ref, filter_filterMap_of_nodup (fun x hx _ h =>
      (id_documentConflict h).trans (hids x hx)) hnodup ref⟩

end Account

/-- Every successful resolution, from whatever cache a resolver can have,
accounts for all dependencies, references, documents and cycles. -/
theorem resolveWorkflow_accounts (c : Config) (files : FileTree) (w : Workflow)
    (cache : Cache) (hreached : cache.Reached c) (r : ResolutionResult)
    (left : Cache)
    (h : (resolveWorkflow c files w).onCache cache = (.ok r, left)) :
    Accounted c files cache w r := by
  have hgiven := result_onCache (asksOn_resolveWorkflow c files w) cache
  rw [h] at hgiven
  obtain ⟨loaded, invalid, hdependencies, hloaded, hnestedOf,
      hcycles, hmissing, hconflicts⟩ :=
    exists_parts hgiven.symm
  obtain ⟨hnested, rfl, hchildren⟩ := nestedOf_eq_ok hnestedOf
  obtain ⟨hfirsts, hdocuments⟩ := loadAll_eq_ok hloaded
  obtain ⟨hinvalid, hcircular⟩ := conflictsOfKind_eq hconflicts
  have hcoherent := hreached.allCoherent
  have hids : ∀ x ∈ loaded, x.1.id = x.1.logicalReference := by
    intro x hx
    refine logicalReference_resolveEach hcoherent hdependencies x.1
      ((sublist_resolvedWorkflows _).subset ?_)
    rw [← hfirsts]
    exact List.mem_map_of_mem hx
  have hunder := under_eq hfirsts hids hnested hinvalid
  constructor
  · rw [result_onCache (asksOn_resolveEach c files _), hdependencies]
  · exact map_id_resolveEach hcoherent hdependencies
  · exact hmissing
  · -- the first entry of a reference is the one whose document was loaded
    intro ref d hd
    obtain ⟨hunderNested, hunderInvalid⟩ := hunder ref
    rw [← find?_loaded hfirsts] at hd
    obtain ⟨⟨d, document⟩, hfind, rfl⟩ := Option.map_eq_some_iff.mp hd
    have hmem := List.mem_of_find?_eq_some hfind
    have href : d.logicalReference = ref := by simpa using List.find?_some hfind
    rw [hfind] at hunderNested hunderInvalid
    cases document with
    | error cause =>
        exact .inr ⟨cause, hdocuments _ hmem, hunderNested, hunderInvalid⟩
    | ok child =>
        obtain ⟨ds, hds⟩ := hchildren d child hmem
        refine .inl ⟨child, ds, hdocuments _ hmem, ?_, ?_, hunderInvalid⟩
        · rw [result_onCache (asksOn_resolveEach c files _), hds]
        · rw [hunderNested, Option.bind_some, nestedEntry, hds, ← href]
          rfl
  · intro ref hnone
    obtain ⟨hunderNested, hunderInvalid⟩ := hunder ref
    rw [← find?_loaded hfirsts, Option.map_eq_none_iff] at hnone
    rw [hunderNested, hunderInvalid, hnone]
    exact ⟨rfl, rfl⟩
  · rw [hinvalid, hcircular]
    exact hconflicts
  · exact grouped_pathConflicts _
  · rw [hinvalid, ← map_reference_loaded hfirsts]
    exact map_filterMap_sublist fun x hx _ h =>
      (id_documentConflict h).trans (hids x hx)
  · rw [result_onCache (asksOn_workflowCycles c files w), hcycles]
  · rw [hcircular, List.map_map]
    exact List.map_id _

def oneUsable : FileTree :=
  (FileTree.empty.put ["work", "a"] (.newFile (.text "agents: [x]\n"))).put
    ["work", "b"] .newDirectory

def callerOfBoth : Workflow :=
  { callerOfA with
      dependencies := [(Dependency.ofName .workflow "a").withPath "a",
      (Dependency.ofName .workflow "b").withPath "b",
      (Dependency.ofName .workflow "a").withPath "none",
      Dependency.ofName .agent "y"] }

theorem resolveWorkflow_accounts_callerOfBoth :
    ∃ r left,
      (resolveWorkflow .standard oneUsable callerOfBoth).onCache .empty =
        (.ok r, left) ∧
      Accounted .standard oneUsable .empty callerOfBoth r ∧
      r.nested.map Prod.fst = ["workflow:a"] ∧
      (r.conflictsOfKind .invalidDocument).map Conflict.dependencyId =
        ["workflow:b"] ∧
      r.missing.map ResolvedDependency.id = ["workflow:a", "agent:y"] := by
  have hresult :
      ((resolveWorkflow .standard oneUsable callerOfBoth).onCache .empty).1.map
      (fun r => (r.nested.map Prod.fst,
        (r.conflictsOfKind .invalidDocument).map Conflict.dependencyId,
        r.missing.map ResolvedDependency.id)) =
      .ok (["workflow:a"], ["workflow:b"], ["workflow:a", "agent:y"]) := by
    decide +kernel
  rcases hrun :
      (resolveWorkflow .standard oneUsable callerOfBoth).onCache .empty with
    ⟨cause | r, left⟩
  · rw [hrun] at hresult
    cases hresult
  · rw [hrun] at hresult
    obtain ⟨hnested, hothers⟩ := Prod.mk.inj (Except.ok.inj hresult)
    obtain ⟨hinvalid, hmissing⟩ := Prod.mk.inj hothers
    exact ⟨r, left, rfl, resolveWorkflow_accounts _ _ _ _ .refl r left hrun,
      hnested, hinvalid, hmissing⟩

end Workflows.Resolution
