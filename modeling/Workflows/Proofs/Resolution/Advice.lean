import Workflows.Proofs.Resolution.PathConflicts

/-!
# Advice and success

Whether a resolution succeeded, its conflicts and the sentences that advise on
it are computed apart.  They say the same: every cycle is a conflict too, and a
conflict that is not a cycle is of a kind with a sentence of its own.
-/

namespace Workflows.Resolution

/-! ## Ids that stand together -/

theorem squeeze_replicate_append {id : String} {rest : List String}
    (hnew : id ∉ rest) (n : Nat) :
    squeeze (List.replicate (n + 1) id ++ rest) = id :: squeeze rest := by
  induction n with
  | zero =>
      cases rest with
      | nil => rfl
      | cons next rest =>
          have hne : id ≠ next := fun heq => hnew (heq ▸ List.mem_cons_self)
          simp [squeeze, hne]
  | succ n ih =>
      rw [List.replicate_succ, List.cons_append] at ih ⊢
      rw [List.replicate_succ, List.cons_append, squeeze, if_pos rfl, ih]

theorem distinct_replicate_append {id : String} {rest : List String}
    (hnew : id ∉ rest) (n : Nat) :
    distinct (List.replicate (n + 1) id ++ rest) = id :: distinct rest := by
  have hrest : (List.replicate n id ++ rest).filter (fun other => other ≠ id) =
      rest := by
    rw [List.filter_append, List.filter_replicate, if_neg (by simp),
      List.nil_append, List.filter_eq_self]
    intro other hother
    simpa using ne_of_mem_of_not_mem hother hnew
  rw [List.replicate_succ, List.cons_append, distinct, filter_distinct, hrest]

theorem notMem_rows {id : String} {ids : List String} (h : id ∉ ids)
    (count : String → Nat) :
    id ∉ ids.flatMap fun other => List.replicate (count other) other := by
  intro hmem
  obtain ⟨other, hother, hid⟩ := List.mem_flatMap.mp hmem
  exact h (List.eq_of_mem_replicate hid ▸ hother)

theorem squeeze_flatMap_replicate {ids : List String} (h : ids.Nodup)
    (count : String → Nat) :
    squeeze (ids.flatMap fun id => List.replicate (count id) id) =
      distinct (ids.flatMap fun id => List.replicate (count id) id) := by
  induction ids with
  | nil => rfl
  | cons id rest ih =>
      obtain ⟨hnew, hrest⟩ := List.nodup_cons.mp h
      have hlater := notMem_rows hnew count
      rw [List.flatMap_cons]
      cases count id with
      | zero => exact ih hrest
      | succ n =>
          rw [squeeze_replicate_append hlater, distinct_replicate_append hlater,
            ih hrest]

theorem squeeze_map_id_pathConflicts (ds : List ResolvedDependency) :
    squeeze ((pathConflicts ds).map Conflict.dependencyId) =
      distinct ((pathConflicts ds).map Conflict.dependencyId) := by
  have hrow (id : String) : (pathConflictsOf ds id).map Conflict.dependencyId =
      List.replicate (pathConflictsOf ds id).length id := by
    rw [List.eq_replicate_iff, List.length_map]
    refine ⟨rfl, List.forall_mem_map.mpr fun conflict hconflict => ?_⟩
    exact (mem_pathConflictsOf hconflict).2
  simp only [pathConflicts, List.map_flatMap, hrow]
  exact squeeze_flatMap_replicate (nodup_distinct _) _

/-! ## Troubles -/

/-- What can be wrong with what a workflow depends on, in the order of the
advice. -/
inductive Trouble where
  | missing
  | pathConflict
  | invalidDocument
  | cycle
  deriving DecidableEq, Repr

namespace Trouble

def all : List Trouble := [missing, pathConflict, invalidDocument, cycle]

def occurs (r : ResolutionResult) : Trouble → Bool
  | missing => !r.missing.isEmpty
  | pathConflict => !(r.conflictsOfKind .pathConflict).isEmpty
  | invalidDocument => !(r.conflictsOfKind .invalidDocument).isEmpty
  | cycle => !r.cycles.isEmpty

/-- What the advice names.  An id with several paths has a conflict for each of
its entries, and is named once. -/
def items (r : ResolutionResult) : Trouble → List String
  | missing => r.missing.map ResolvedDependency.id
  | pathConflict =>
      distinct ((r.conflictsOfKind .pathConflict).map Conflict.dependencyId)
  | invalidDocument =>
      (r.conflictsOfKind .invalidDocument).map Conflict.dependencyId
  | cycle => r.cycles.map (" -> ".intercalate ·)

def verb : Trouble → String
  | missing => "Create or install"
  | pathConflict => "Give each logical reference a single path to resolve"
  | invalidDocument => "Fix"
  | cycle => "Break"

def noun (n : Nat) : Trouble → String
  | missing => if n = 1 then "missing dependency" else "missing dependencies"
  | pathConflict => if n = 1 then "path conflict" else "path conflicts"
  | invalidDocument =>
      if n = 1 then "unreadable workflow document"
      else "unreadable workflow documents"
  | cycle =>
      if n = 1 then "circular workflow reference"
      else "circular workflow references"

def separator : Trouble → String
  | cycle => "; "
  | _ => ", "

def advice (r : ResolutionResult) (t : Trouble) : String :=
  let items := t.items r
  t.verb ++ " " ++ toString items.length ++ " " ++
  t.noun items.length ++ ": " ++
    t.separator.intercalate items ++ "."

end Trouble

def affirmation : String := "All dependencies resolved successfully."

namespace Trouble

theorem isEmpty_items (r : ResolutionResult) (t : Trouble) :
    (t.items r).isEmpty = !t.occurs r := by
  cases t with
  | pathConflict =>
      rw [items, occurs]
      cases r.conflictsOfKind .pathConflict <;> rfl
  | _ => simp [items, occurs]

theorem advice_ne_affirmation (r : ResolutionResult) (t : Trouble) :
    t.advice r ≠ affirmation := by
  intro h
  have hhead := congrArg (fun s => s.toList.head?) h
  cases t <;> simp [advice, verb, affirmation] at hhead

end Trouble

/-! ## The sentences -/

/-- The success, the conflicts, the cycles and the advice of a result say the
same. -/
structure Advised (r : ResolutionResult) : Prop where
  recommendations_ne_nil : r.recommendations ≠ []
  success_iff_affirmed : r.success = true ↔ r.recommendations = [affirmation]
  success_iff_clean : r.success = true ↔ r.missing = [] ∧ r.conflicts = [] ∧
    r.cycles = []
  recommendations_eq : r.success = false →
    r.recommendations =
      (Trouble.all.filter (Trouble.occurs r)).map (Trouble.advice r)

section

variable {c : Config} {files : FileTree} {w : Workflow} {table : AnswerTable}
  {r : ResolutionResult}

theorem success_and_recommendations
    (h : (resolveWorkflow c files w).given table = .ok r) :
    r.success = (r.missing.isEmpty && r.conflicts.isEmpty) ∧
      r.recommendations = recommendations r.missing r.conflicts r.cycles := by
  rw [resolveWorkflow, Resolving.given_bind] at h
  obtain ⟨dependencies, -, h⟩ := exists_of_bind_ok h
  rw [Resolving.given_bind] at h
  obtain ⟨nested, -, h⟩ := exists_of_bind_ok h
  rw [Resolving.given_bind] at h
  obtain ⟨cycles, -, h⟩ := exists_of_bind_ok h
  cases h
  exact ⟨rfl, rfl⟩

theorem conflicts_eq (h : (resolveWorkflow c files w).given table = .ok r) :
    r.conflicts = r.conflictsOfKind .pathConflict ++
      r.conflictsOfKind .invalidDocument ++
      r.cycles.map circularConflict := by
  obtain ⟨loaded, invalid, -, -, hnested, -, -, hconflicts⟩ := exists_parts h
  obtain ⟨-, rfl, -⟩ := nestedOf_eq_ok hnested
  rw [conflictsOfKind_pathConflict h, (conflictsOfKind_eq hconflicts).1]
  exact hconflicts

theorem conflicts_eq_nil_iff
    (h : (resolveWorkflow c files w).given table = .ok r) :
    r.conflicts = [] ↔ r.conflictsOfKind .pathConflict = [] ∧
      r.conflictsOfKind .invalidDocument = [] ∧ r.cycles = [] := by
  rw [conflicts_eq h]
  simp

theorem items_pathConflict
    (h : (resolveWorkflow c files w).given table = .ok r) :
    Trouble.pathConflict.items r =
      squeeze (idsOf r.conflicts .pathConflict) := by
  rw [Trouble.items]
  change _ =
    squeeze ((r.conflictsOfKind .pathConflict).map Conflict.dependencyId)
  rw [conflictsOfKind_pathConflict h, squeeze_map_id_pathConflicts]

theorem recommendations_eq_append
    (h : (resolveWorkflow c files w).given table = .ok r) :
    r.recommendations =
      (Trouble.all.filter (Trouble.occurs r)).map (Trouble.advice r) ++
      if r.missing.isEmpty && r.conflicts.isEmpty && r.cycles.isEmpty then
        [affirmation]
      else [] := by
  have hsentence (t : Trouble) : (if t.occurs r then [t.advice r] else []) =
      sentence t.verb (t.items r) (t.noun 1) (t.noun 2) t.separator := by
    rw [sentence, Trouble.isEmpty_items]
    cases hoccurs : t.occurs r with
    | false => rfl
    | true => cases t <;> rfl
  have hmap : (Trouble.all.filter (Trouble.occurs r)).map (Trouble.advice r) =
      Trouble.all.flatMap fun t =>
        sentence t.verb (t.items r) (t.noun 1) (t.noun 2) t.separator := by
    rw [← List.filterMap_eq_map, List.filterMap_filter,
      List.filterMap_eq_flatMap_toList]
    refine congrArg (Trouble.all.flatMap ·) (funext fun t => ?_)
    rw [← hsentence]
    cases t.occurs r <;> rfl
  rw [hmap, (success_and_recommendations h).2,
    recommendations, ← items_pathConflict h]
  simp only [Trouble.all, List.flatMap_cons, List.flatMap_nil,
    List.append_assoc, List.append_nil]
  rfl

theorem success_iff_filter_eq_nil
    (h : (resolveWorkflow c files w).given table = .ok r) :
    r.success = true ↔ Trouble.all.filter (Trouble.occurs r) = [] := by
  rw [(success_and_recommendations h).1, Bool.and_eq_true, List.isEmpty_iff,
    List.isEmpty_iff, conflicts_eq_nil_iff h, List.filter_eq_nil_iff]
  simp [Trouble.all, Trouble.occurs]

theorem success_eq (h : (resolveWorkflow c files w).given table = .ok r) :
    (r.missing.isEmpty && r.conflicts.isEmpty && r.cycles.isEmpty) =
      r.success := by
  rw [(success_and_recommendations h).1]
  apply Bool.eq_iff_iff.mpr
  simp only [Bool.and_eq_true, List.isEmpty_iff]
  constructor
  · exact And.left
  · intro hsuccess
    exact ⟨hsuccess, ((conflicts_eq_nil_iff h).mp hsuccess.2).2.2⟩

theorem recommendations_eq_ite
    (h : (resolveWorkflow c files w).given table = .ok r) :
    r.recommendations = if r.success then [affirmation]
      else (Trouble.all.filter (Trouble.occurs r)).map (Trouble.advice r) := by
  rw [recommendations_eq_append h, success_eq h]
  cases hsuccess : r.success with
  | false => simp
  | true => simp [(success_iff_filter_eq_nil h).mp hsuccess]

end

/-- What a successful resolution recommends, whatever the cache and the files,
is in agreement with all that it found: the one sentence of success if it found
no trouble, and else a sentence for each trouble in turn. -/
theorem resolveWorkflow_advised (c : Config) (files : FileTree) (w : Workflow)
    (cache : Cache) (r : ResolutionResult) (left : Cache)
    (h : (resolveWorkflow c files w).onCache cache = (.ok r, left)) :
    Advised r := by
  have hgiven := result_onCache (asksOn_resolveWorkflow c files w) cache
  rw [h] at hgiven
  have hrecommendations := recommendations_eq_ite hgiven.symm
  have hsuccess := success_iff_filter_eq_nil hgiven.symm
  constructor
  · rw [hrecommendations]
    split
    · simp
    · next hfailed =>
        exact fun hnil => hfailed (hsuccess.mpr (List.map_eq_nil_iff.mp hnil))
  · constructor
    · intro htrue
      rw [hrecommendations, if_pos htrue]
    · intro haffirmed
      by_contra hfailed
      rw [hrecommendations, if_neg hfailed] at haffirmed
      obtain ⟨t, -, htrouble⟩ :=
        List.mem_map.mp (haffirmed ▸ List.mem_singleton_self _)
      exact t.advice_ne_affirmation r htrouble
  · rw [← success_eq hgiven.symm]
    simp [and_assoc]
  · intro hfailed
    rw [hrecommendations, hfailed]
    rfl

def oneCycle : FileTree :=
  selfReferring.put ["work", "b"] .newDirectory

def callerInTrouble : Workflow :=
  { callerOfA with
    dependencies := [(Dependency.ofName .workflow "a").withPath "d",
      (Dependency.ofName .workflow "a").withPath "none",
      (Dependency.ofName .workflow "b").withPath "b",
      Dependency.ofName .agent "y"] }

theorem resolveWorkflow_advised_callerInTrouble :
    ∃ r left,
      (resolveWorkflow .standard oneCycle callerInTrouble).onCache .empty =
        (.ok r, left) ∧
      Advised r ∧ Trouble.all.filter (Trouble.occurs r) = Trouble.all ∧
      r.recommendations = [
        "Create or install 2 missing dependencies: workflow:a, agent:y.",
        "Give each logical reference a single path to resolve 1 path " ++
          "conflict: workflow:a.",
        "Fix 1 unreadable workflow document: workflow:b.",
        "Break 1 circular workflow reference: workflow:a -> workflow:a."] := by
  have hresult :
      ((resolveWorkflow .standard oneCycle callerInTrouble).onCache
        .empty).1.map (fun r =>
        (Trouble.all.filter (Trouble.occurs r), r.recommendations)) =
      .ok (Trouble.all, [
        "Create or install 2 missing dependencies: workflow:a, agent:y.",
        "Give each logical reference a single path to resolve 1 path " ++
          "conflict: workflow:a.",
        "Fix 1 unreadable workflow document: workflow:b.",
        "Break 1 circular workflow reference: workflow:a -> workflow:a."]) := by
    decide +kernel
  obtain ⟨r, left, hrun, hseen⟩ := Resolving.exists_of_map_onCache hresult
  obtain ⟨htroubles, hrecommendations⟩ := Prod.mk.inj hseen
  exact ⟨r, left, hrun, resolveWorkflow_advised _ _ _ _ r left hrun, htroubles,
    hrecommendations⟩

end Workflows.Resolution
