import Workflows.Proofs.Cycle.Completeness
import Workflows.Proofs.Graph.Successors
import Workflows.Proofs.Resolution.References
import Workflows.Proofs.Resolution.Work

/-!
# Cycles of workflow references

The walk from a workflow asks once for each key that it follows, and no request
changes the answer to another, so what it loads is what the cache and the files
said at first.  The cycles that are found are those of the references within the
greatest depth.
-/

open Workflows.Cycle

namespace Workflows.Resolution

variable {c : Config} {files : FileTree}

def requestOf (c : Config) (files : FileTree) (d : Dependency) : Request :=
  ⟨c, files, d.kind, d.name, d.path⟩

/-- What loading a reference gives: the document that it leads to, if it is
resolved to a file that can be read and parsed. -/
def documentBehind (c : Config) (files : FileTree)
    (cache : Cache) (d : Dependency) :
    Except ResolutionError (Option Workflow) :=
  match ((requestOf c files d).answer cache).1 with
  | .error cause => .error cause
  | .ok entry =>
      if entry.resolved then (documentOf c files entry).map Except.toOption
      else .ok none

def linked (c : Config) (files : FileTree) (cache : Cache) (d : Dependency) :
    Option Workflow :=
  (documentBehind c files cache d).toOption.join

def askedFor (c : Config) (files : FileTree) (cache : Cache) (d : Dependency) :
    Event :=
  .asked (requestOf c files d) ((requestOf c files d).answer cache).1

theorem linked_eq {cache : Cache} {d : Dependency} {document : Option Workflow}
    (h : documentBehind c files cache d = .ok document) :
    linked c files cache d = document := by
  rw [linked, h]
  rfl

theorem documentBehind_eq {first cache : Cache} {ids : List String}
    (h : Cache.AgreesExcept ids first cache) {d : Dependency}
    (hnew : d.key ∉ ids) :
    documentBehind c files cache d = documentBehind c files first d := by
  have hanswer : ((requestOf c files d).answer cache).1 = _ := h.answer_eq hnew
  rw [documentBehind, documentBehind, hanswer]

theorem askedFor_eq {first cache : Cache} {ids : List String}
    (h : Cache.AgreesExcept ids first cache) {d : Dependency}
    (hnew : d.key ∉ ids) :
    askedFor c files cache d = askedFor c files first d := by
  have hanswer : ((requestOf c files d).answer cache).1 = _ := h.answer_eq hnew
  rw [askedFor, askedFor, hanswer]

/-! ## Loading -/

namespace Walk

theorem load_eq (c : Config) (files : FileTree) (d : Dependency) :
    load c files d = .ask (requestOf c files d) fun entry => .done
      (if entry.resolved then
        (documentOf c files entry).map fun document =>
          (d.key, document.toOption)
      else .ok (d.key, none)) := by
  refine congrArg (Resolving.ask (requestOf c files d)) (funext fun entry => ?_)
  cases hresolved : entry.resolved with
  | false =>
      change (if entry.resolved = true then _ else pure (d.key, none)) = _
      rw [hresolved]
      rfl
  | true =>
      change (if entry.resolved = true then _ else _) = _
      rw [hresolved, if_pos rfl, if_pos rfl]
      rcases documentOf c files entry with cause | cause | w <;> rfl

theorem onCache_load (c : Config) (files : FileTree)
    (d : Dependency) (cache : Cache) :
    (load c files d).onCache cache =
      ((documentBehind c files cache d).map fun document => (d.key, document),
        ((requestOf c files d).answer cache).2) := by
  rw [load_eq, Resolving.onCache, documentBehind]
  rcases (requestOf c files d).answer cache with ⟨cause | entry, left⟩
  · rfl
  · dsimp only [Resolving.onCache]
    cases entry.resolved with
    | false => rfl
    | true => cases documentOf c files entry <;> rfl

theorem events_load (c : Config) (files : FileTree)
    (d : Dependency) (cache : Cache) :
    (load c files d).events cache = [askedFor c files cache d] := by
  rw [load_eq, Resolving.events, askedFor]
  rcases (requestOf c files d).answer cache with ⟨cause | entry, left⟩ <;> rfl

theorem load_eq_ok {d : Dependency} {cache left : Cache}
    {loaded : String × Option Workflow}
    (h : (load c files d).onCache cache = (.ok loaded, left)) :
    documentBehind c files cache d = .ok loaded.2 ∧ loaded.1 = d.key ∧
      left = ((requestOf c files d).answer cache).2 := by
  rw [onCache_load] at h
  cases hdocument : documentBehind c files cache d with
  | error cause =>
      rw [hdocument] at h
      cases h
  | ok document =>
      rw [hdocument] at h
      cases h
      exact ⟨rfl, rfl, rfl⟩

section Pending

variable {first cache left : Cache} {ids : List String}
  {pending : List Dependency}

theorem reverse_keys_cons (d : Dependency) (rest : List Dependency)
    (ids : List String) :
    ((d :: rest).map Dependency.key).reverse ++ ids =
      (rest.map Dependency.key).reverse ++ d.key :: ids := by
  simp

theorem notMem_of_nodup_keys {d : Dependency} {keys : List String}
    (h : (keys ++ d.key :: ids).Nodup) : d.key ∉ ids :=
  (List.nodup_cons.mp (List.nodup_append.mp h).2.1).1

theorem mapM_load_eq_ok {loaded : List (String × Option Workflow)}
    (hagrees : Cache.AgreesExcept ids first cache)
    (hnodup : ((pending.map Dependency.key).reverse ++ ids).Nodup)
    (h : (pending.mapM (load c files)).onCache cache = (.ok loaded, left)) :
    (∀ d ∈ pending, ∃ document, documentBehind c files first d = .ok document) ∧
      loaded = pending.map (fun d => (d.key, linked c files first d)) ∧
      Cache.AgreesExcept ((pending.map Dependency.key).reverse ++ ids)
        first left ∧
      (pending.mapM (load c files)).events cache =
        pending.map (askedFor c files first) := by
  induction pending generalizing ids cache loaded with
  | nil =>
      cases h
      exact ⟨nofun, rfl, hagrees, rfl⟩
  | cons d rest ih =>
      rw [reverse_keys_cons] at hnodup ⊢
      have hnew := notMem_of_nodup_keys hnodup
      rw [List.mapM_cons] at h ⊢
      -- the first key is new, and the keys of the rest are not among those
      -- known by then
      obtain ⟨⟨key, document⟩, between, hload, hothers, hevents⟩ :=
        Resolving.exists_of_bind h
      obtain ⟨pairs, between', hrest, hpure, hevents'⟩ :=
        Resolving.exists_of_bind hothers
      cases hpure
      obtain ⟨hdocument, rfl, rfl⟩ := load_eq_ok hload
      rw [documentBehind_eq hagrees hnew] at hdocument
      obtain ⟨hdocuments, rfl, hleft, hlater⟩ :=
        ih (hagrees.answer (requestOf c files d)) hnodup hrest
      refine ⟨List.forall_mem_cons.mpr ⟨⟨document, hdocument⟩, hdocuments⟩, ?_,
        hleft, ?_⟩
      · rw [List.map_cons, linked_eq hdocument]
      · rw [hevents, hevents', events_load, hlater, askedFor_eq hagrees hnew]
        simp [Resolving.events, pure]

theorem exists_mapM_load (hagrees : Cache.AgreesExcept ids first cache)
    (hnodup : ((pending.map Dependency.key).reverse ++ ids).Nodup)
    (h : ∀ d ∈ pending, ∃ document,
      documentBehind c files first d = .ok document) :
    ∃ loaded left, (pending.mapM (load c files)).onCache cache =
      (.ok loaded, left) := by
  induction pending generalizing ids cache with
  | nil => exact ⟨[], cache, rfl⟩
  | cons d rest ih =>
      obtain ⟨⟨document, hdocument⟩, hrest⟩ := List.forall_mem_cons.mp h
      rw [reverse_keys_cons] at hnodup
      have hnew := notMem_of_nodup_keys hnodup
      have hload : (load c files d).onCache cache =
          (.ok (d.key, document), ((requestOf c files d).answer cache).2) := by
        rw [onCache_load, documentBehind_eq hagrees hnew, hdocument]
        rfl
      obtain ⟨loaded, left, hloaded⟩ :=
        ih (hagrees.answer (requestOf c files d)) hnodup hrest
      refine ⟨(d.key, document) :: loaded, left, ?_⟩
      rw [List.mapM_cons, Resolving.onCache_bind hload,
        Resolving.onCache_bind hloaded]
      rfl

end Pending

/-! ## Descending -/

def linksOf (link : Dependency → Option Workflow) (ds : List Dependency) :
    List (String × List String) :=
  ds.filterMap fun d => (link d).map fun w => (d.key, referencesOf w)

theorem map_documents (link : Dependency → Option Workflow)
    (ds : List Dependency) :
    (((ds.map fun d => (d.key, link d)).filterMap fun (key, document) =>
      document.map (key, ·)).map fun (key, w) => (key, referencesOf w)) =
      linksOf link ds := by
  induction ds with
  | nil => rfl
  | cons d rest ih => cases h : link d <;> simpa [linksOf, h] using ih

theorem flatMap_documents (link : Dependency → Option Workflow)
    (ds : List Dependency) :
    (((ds.map fun d => (d.key, link d)).filterMap fun (key, document) =>
      document.map (key, ·)).flatMap fun (_, w) => workflowsOf w) =
      ds.flatMap (onward link) := by
  induction ds with
  | nil => rfl
  | cons d rest ih => cases h : link d <;> simpa [onward, h] using ih

def followedFrom (link : Dependency → Option Workflow)
    (w : Workflow) (n count : Nat) :
    List Dependency :=
  (List.range' n count).flatMap fun m => (levelAt link w m).first

theorem followedFrom_succ (link : Dependency → Option Workflow) (w : Workflow)
    (n count : Nat) :
    followedFrom link w n (count + 1) =
      (levelAt link w n).first ++ followedFrom link w (n + 1) count := by
  rw [followedFrom, List.range'_succ, List.flatMap_cons, followedFrom]

theorem followedFrom_eq_nil {link : Dependency → Option Workflow} {w : Workflow}
    {n : Nat} (h : (levelAt link w n).references = []) (count : Nat) :
    followedFrom link w n count = [] := by
  induction count generalizing n with
  | zero => rfl
  | succ count ih =>
      have hfirst : (levelAt link w n).first = [] := by
        rw [Level.first, h]
        rfl
      have hnext : (levelAt link w (n + 1)).references = [] := by
        rw [levelAt, Level.next, hfirst]
        rfl
      rw [followedFrom_succ, hfirst, ih hnext, List.append_nil]

theorem descend_succ {depth : Nat} {walk : Walk} {frontier : List Dependency}
    (h : frontier ≠ []) :
    descend c files (depth + 1) walk frontier =
      (fresh walk.expanded frontier).1.mapM (load c files) >>= fun loaded =>
        let documents := loaded.filterMap fun (key, document) =>
          document.map (key, ·)
        descend c files depth
          ⟨walk.references ++ documents.map fun (key, w) =>
            (key, referencesOf w), (fresh walk.expanded frontier).2⟩
          (documents.flatMap fun (_, w) => workflowsOf w) := by
  rw [descend, if_neg (by simpa using h)]

section Levels

variable {first cache left : Cache} {w : Workflow} {depth n : Nat}
  {walk walk' : Walk}

theorem descend_eq_ok
    (hexpanded : walk.expanded = (levelAt (linked c files first) w n).known)
    (hagrees :
      Cache.AgreesExcept (levelAt (linked c files first) w n).known first cache)
    (h : (descend c files depth walk
      (levelAt (linked c files first) w n).references).onCache cache =
        (.ok walk', left)) :
    (∀ d ∈ followedFrom (linked c files first) w n depth,
      ∃ document, documentBehind c files first d = .ok document) ∧
    walk'.references = walk.references ++ linksOf (linked c files first)
      (followedFrom (linked c files first) w n depth) ∧
    (descend c files depth walk
      (levelAt (linked c files first) w n).references).events cache =
        (followedFrom (linked c files first) w n depth).map
          (askedFor c files first) := by
  induction depth generalizing n walk cache with
  | zero =>
      cases h
      exact ⟨nofun, (List.append_nil _).symm, rfl⟩
  | succ depth ih =>
      by_cases hempty : (levelAt (linked c files first) w n).references = []
      · -- the walk ends before its depth, and the levels after it are empty
        rw [followedFrom_eq_nil hempty]
        rw [hempty] at h ⊢
        cases h
        exact ⟨nofun, (List.append_nil _).symm, rfl⟩
      · rw [descend_succ hempty, hexpanded] at h ⊢
        obtain ⟨loaded, between, hloaded, hrest, hevents⟩ :=
          Resolving.exists_of_bind h
        have hnodup := nodup_known_levelAt (linked c files first) w (n + 1)
        rw [levelAt, Level.known_next] at hnodup
        obtain ⟨hdocuments, rfl, hagrees', hasked⟩ :=
          mapM_load_eq_ok hagrees hnodup hloaded
        rw [← Level.known_next (linked c files first)] at hagrees'
        simp only [flatMap_documents, map_documents] at hrest hevents
        obtain ⟨hlater, hreferences, hasked'⟩ :=
          @ih _ (n + 1) _ rfl hagrees' hrest
        rw [followedFrom_succ]
        refine ⟨List.forall_mem_append.mpr ⟨hdocuments, hlater⟩, ?_, ?_⟩
        · rw [hreferences, linksOf, linksOf, linksOf, List.filterMap_append,
            List.append_assoc]
        · rw [hevents, List.map_append, ← hasked', ← hasked]
          rfl

theorem exists_descend
    (hexpanded : walk.expanded = (levelAt (linked c files first) w n).known)
    (hagrees :
      Cache.AgreesExcept (levelAt (linked c files first) w n).known first cache)
    (h : ∀ d ∈ followedFrom (linked c files first) w n depth,
      ∃ document, documentBehind c files first d = .ok document) :
    ∃ walk' left, (descend c files depth walk
      (levelAt (linked c files first) w n).references).onCache cache =
        (.ok walk', left) := by
  induction depth generalizing n walk cache with
  | zero => exact ⟨walk, cache, rfl⟩
  | succ depth ih =>
      by_cases hempty : (levelAt (linked c files first) w n).references = []
      · rw [hempty]
        exact ⟨walk, cache, rfl⟩
      · rw [followedFrom_succ, List.forall_mem_append] at h
        have hnodup := nodup_known_levelAt (linked c files first) w (n + 1)
        rw [levelAt, Level.known_next] at hnodup
        obtain ⟨loaded, between, hloaded⟩ := exists_mapM_load hagrees hnodup h.1
        obtain ⟨-, rfl, hagrees', -⟩ := mapM_load_eq_ok hagrees hnodup hloaded
        rw [← Level.known_next (linked c files first)] at hagrees'
        rw [descend_succ hempty, hexpanded]
        obtain ⟨walk', left, hrest⟩ := @ih _ (n + 1) ⟨walk.references ++ linksOf
          (linked c files first) (levelAt (linked c files first) w n).first, _⟩
          rfl hagrees' h.2
        refine ⟨walk', left, (Resolving.onCache_bind hloaded).trans ?_⟩
        simp only [flatMap_documents, map_documents]
        exact hrest

end Levels

end Walk

/-! ## The graph of references -/

theorem lookup_linksOf {link : Dependency → Option Workflow}
    {ds : List Dependency} (h : (ds.map Dependency.key).Nodup) (key : String) :
    (Walk.linksOf link ds).lookup key =
      (ds.find? fun d => d.key == key).bind fun d =>
        (link d).map referencesOf := by
  induction ds with
  | nil => rfl
  | cons d rest ih =>
      obtain ⟨hnew, hrest⟩ := List.nodup_cons.mp h
      by_cases heq : d.key = key
      · subst heq
        have hnone : rest.find? (fun e => e.key == d.key) = none := by
          simpa using hnew
        have hlater := ih hrest
        rw [hnone] at hlater
        cases hlink : link d with
        | none => simpa [Walk.linksOf, hlink] using hlater
        | some w => simp [Walk.linksOf, hlink]
      · have hlater := ih hrest
        have hne : (key == d.key) = false := beq_false_of_ne (Ne.symm heq)
        cases hlink : link d with
        | none => simpa [Walk.linksOf, hlink, heq] using hlater
        | some w =>
            simpa [Walk.linksOf, hlink, heq, List.lookup_cons, hne] using hlater

theorem successors_eq_referenceGraph {link : Dependency → Option Workflow}
    {w : Workflow} {depth : Nat} {walk : Walk}
    (h : walk.references =
      (Walk.start w).references ++ Walk.linksOf link
        (firstWithin link w depth)) :
    walk.successors = referenceGraph link w depth := by
  funext key
  rw [Walk.successors, h, Walk.start, List.singleton_append, List.lookup_cons,
    referenceGraph]
  by_cases hroot : key = rootOf w
  · rw [if_pos hroot, hroot, rootOf, BEq.rfl]
    rfl
  · have hne : (key == Reference.key .workflow w.name) = false :=
      beq_false_of_ne hroot
    rw [if_neg hroot, hne, find?_referencesWithin hroot]
    simp only [lookup_linksOf (nodup_keys_firstWithin depth)]
    cases (firstWithin link w depth).find? fun d => d.key == key with
    | none => rfl
    | some d =>
        simp only [Option.bind_some, onward]
        cases link d <;> rfl

theorem mem_keys_of_reachable {walk : Walk} {root : String}
    (hroot : root ∈ walk.references.map Prod.fst) {key : String}
    (h : Reachable walk.successors [root] key) : key ∈ walk.keys := by
  refine h.mem (fun other hother => ?_) (fun node _ next hnext => ?_)
  · rw [List.mem_singleton.mp hother, Walk.keys, mem_distinct]
    exact List.mem_append_left _ hroot
  · rw [Walk.keys, mem_distinct]
    refine List.mem_append_right _ (List.mem_flatMap.mpr ?_)
    rw [Walk.successors] at hnext
    cases hlookup : walk.references.lookup node with
    | none =>
        rw [hlookup] at hnext
        cases hnext
    | some keys =>
        rw [hlookup] at hnext
        obtain ⟨before, after, hsplit, -⟩ := List.lookup_eq_some_iff.mp hlookup
        exact ⟨(node, keys), by simp [hsplit], hnext⟩

/-- The references that are followed from a workflow, as the cache and the files
stand. -/
def followed (c : Config) (files : FileTree) (cache : Cache) (w : Workflow) :
    List Dependency :=
  firstWithin (linked c files cache) w c.maxDepth

def followedGraph (c : Config) (files : FileTree)
    (cache : Cache) (w : Workflow) :
    String → List String :=
  referenceGraph (linked c files cache) w c.maxDepth

section Walks

variable {w : Workflow} {cache left : Cache}

theorem walkFrom_eq_ok {walk : Walk}
    (h : (walkFrom c files w).onCache cache = (.ok walk, left)) :
    (∀ d ∈ followed c files cache w,
      ∃ document, documentBehind c files cache d = .ok document) ∧
    walk.references = (Walk.start w).references ++
      Walk.linksOf (linked c files cache) (followed c files cache w) ∧
    (walkFrom c files w).events cache =
      (followed c files cache w).map (askedFor c files cache) := by
  have hwalk :=
    @Walk.descend_eq_ok c files cache cache left w c.maxDepth 0 (.start w) walk
    rfl (.refl _ _) h
  rwa [Walk.followedFrom, ← List.range_eq_range'] at hwalk

theorem exists_walkFrom (h : ∀ d ∈ followed c files cache w,
    ∃ document, documentBehind c files cache d = .ok document) :
    ∃ walk left, (walkFrom c files w).onCache cache = (.ok walk, left) := by
  rw [followed, firstWithin, List.range_eq_range'] at h
  exact @Walk.exists_descend c files cache cache w c.maxDepth 0 (.start w) rfl
    (.refl _ _) h

theorem exists_workflowCycles_iff :
    (∃ cycles left, (workflowCycles c files w).onCache cache =
      (.ok cycles, left)) ↔
      ∀ d ∈ followed c files cache w,
        ∃ document, documentBehind c files cache d = .ok document := by
  constructor
  · rintro ⟨cycles, left, h⟩
    obtain ⟨walk, between, hwalk, -, -⟩ := Resolving.exists_of_bind h
    exact (walkFrom_eq_ok hwalk).1
  · intro h
    obtain ⟨walk, left, hwalk⟩ := exists_walkFrom h
    exact ⟨_, left, Resolving.onCache_bind hwalk⟩

theorem workflowCycles_eq_ok {cycles : List (List String)}
    (h : (workflowCycles c files w).onCache cache = (.ok cycles, left)) :
    (∃ nodes, cycles = find (followedGraph c files cache w) nodes [rootOf w] ∧
      ∀ key, Reachable (followedGraph c files cache w) [rootOf w] key →
      key ∈ nodes) ∧
    (workflowCycles c files w).events cache =
      (followed c files cache w).map (askedFor c files cache) := by
  obtain ⟨walk, between, hwalk, hfind, hevents⟩ := Resolving.exists_of_bind h
  cases hfind
  obtain ⟨-, hreferences, hasked⟩ := walkFrom_eq_ok hwalk
  have hsuccessors : walk.successors = followedGraph c files cache w :=
    successors_eq_referenceGraph hreferences
  have hroot : rootOf w ∈ walk.references.map Prod.fst := by
    rw [hreferences]
    exact List.mem_cons_self
  rw [← hsuccessors]
  exact ⟨⟨walk.keys, rfl, fun key hkey => mem_keys_of_reachable hroot hkey⟩,
    (hevents.trans (List.append_nil _)).trans hasked⟩

end Walks

/-- The search succeeds where every reference that it follows can be looked up
and its document, if it is resolved, be inspected and read.  Every cycle that is
reported then is a simple closed walk among the references within the greatest
depth, and none is reported only where there is none.  Each key that is followed
is asked for once, with the first reference to it that is met, on the level of
its distance from the workflow. -/
theorem workflowCycles_exact (c : Config) (files : FileTree) (w : Workflow)
    (cache : Cache) :
    ((∃ cycles left, (workflowCycles c files w).onCache cache =
      (.ok cycles, left)) ↔
      ∀ d ∈ followed c files cache w,
        ∃ document, documentBehind c files cache d = .ok document) ∧
    ∀ cycles left, (workflowCycles c files w).onCache cache =
      (.ok cycles, left) →
      (∀ cycle ∈ cycles,
        IsCycle (followedGraph c files cache w) [rootOf w] cycle) ∧
      (cycles = [] ↔ ¬ ∃ key,
        Reachable (followedGraph c files cache w) [rootOf w] key ∧
        Relation.TransGen (Follows (followedGraph c files cache w)) key key) ∧
      (∀ n < c.maxDepth, ∀ key,
        key ∈ (levelAt (linked c files cache) w n).first.map Dependency.key ↔
          ReachedIn (followedGraph c files cache w) (rootOf w) (n + 1) key ∧
            ∀ m ≤ n,
              ¬ ReachedIn (followedGraph c files cache w) (rootOf w) m key) ∧
      (workflowCycles c files w).events cache =
        (followed c files cache w).map (askedFor c files cache) ∧
      ((followed c files cache w).map Dependency.key).Nodup := by
  refine ⟨exists_workflowCycles_iff, fun cycles left h => ?_⟩
  obtain ⟨⟨nodes, rfl, hnodes⟩, hevents⟩ := workflowCycles_eq_ok h
  exact ⟨fun cycle hcycle => isCycle_of_mem_find hcycle, find_eq_nil_iff hnodes,
    fun n hn key => mem_first_iff hn, hevents,
    nodup_keys_firstWithin c.maxDepth⟩

def selfReferring : FileTree :=
  FileTree.empty.put ["work", "d"] (.newFile (.text "workflows: [b, a]\n"))

def callerOfA : Workflow where
  name := "root"
  description := none
  version := none
  author := none
  steps := []
  dependencies := [(Dependency.ofName .workflow "a").withPath "d"]
  metadata := []

theorem workflowCycles_callerOfA :
    ∃ left, (workflowCycles .standard selfReferring callerOfA).onCache .empty =
        (.ok [["workflow:a", "workflow:a"]], left) ∧
      IsCycle (followedGraph .standard selfReferring .empty callerOfA)
        [rootOf callerOfA] ["workflow:a", "workflow:a"] ∧
      (followed .standard selfReferring .empty callerOfA).map Dependency.key =
        ["workflow:a", "workflow:b"] := by
  have hcycles :
      ((workflowCycles .standard selfReferring callerOfA).onCache .empty).1 =
      .ok [["workflow:a", "workflow:a"]] := by
    decide +kernel
  have hfollowed : (followed .standard selfReferring .empty callerOfA).map
      Dependency.key = ["workflow:a", "workflow:b"] := by
    decide +kernel
  rcases hrun :
      (workflowCycles .standard selfReferring callerOfA).onCache .empty with
    ⟨result, left⟩
  rw [hrun] at hcycles
  subst hcycles
  have hreported :=
    (workflowCycles_exact .standard selfReferring callerOfA .empty).2 _ _ hrun
  exact ⟨left, rfl, hreported.1 _ List.mem_cons_self, hfollowed⟩

end Workflows.Resolution
