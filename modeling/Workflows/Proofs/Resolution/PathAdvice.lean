import Workflows.Proofs.Resolution.Advice

/-!
# Advice on paths

The advice on paths leaves out equal neighbours only.  As the conflicts of one
id stand together it still names each id once, in the order of the entries.
-/

namespace Workflows

namespace Resolution

/-! ## The advice on paths -/

def pathVerb : String := "Give each logical reference a single path to resolve"

def pathSentence (ids : List String) : String :=
  pathVerb ++ " " ++ toString ids.length ++ " " ++
    (if ids.length = 1 then "path conflict" else "path conflicts") ++ ": " ++
    ", ".intercalate ids ++ "."

def isPathSentence (s : String) : Bool := pathVerb.toList.isPrefixOf s.toList

theorem isPathSentence_pathSentence (ids : List String) :
    isPathSentence (pathSentence ids) = true := by
  rw [isPathSentence, List.isPrefixOf_iff_prefix, pathSentence]
  simp only [String.append_assoc, String.toList_append]
  exact List.prefix_append _ _

theorem filter_sentence_of_path (ids : List String) :
    (sentence pathVerb ids "path conflict" "path conflicts" ", ").filter
      isPathSentence =
      if ids = [] then [] else [pathSentence ids] := by
  cases ids with
  | nil => rfl
  | cons id rest =>
      have hsentence :
          sentence pathVerb (id :: rest) "path conflict" "path conflicts" ", " =
          [pathSentence (id :: rest)] := rfl
      rw [hsentence, List.filter_cons_of_pos (isPathSentence_pathSentence _),
        List.filter_nil, if_neg (List.cons_ne_nil id rest)]

theorem filter_sentence_of_other (verb : String)
    (h : ∀ rest, isPathSentence (verb ++ rest) = false) (items : List String)
    (one many separator : String) :
    (sentence verb items one many separator).filter isPathSentence = [] := by
  unfold sentence
  split
  · rfl
  · simp only [String.append_assoc, List.filter_cons, h, List.filter_nil,
      Bool.false_eq_true, if_false]

theorem filter_recommendations (missing : List ResolvedDependency)
    (conflicts : List Conflict) (cycles : List (List String)) :
    (recommendations missing conflicts cycles).filter isPathSentence =
      if squeeze (idsOf conflicts .pathConflict) = [] then []
      else [pathSentence (squeeze (idsOf conflicts .pathConflict))] := by
  have hother (verb : String)
      (hverb : verb ∈ ["Create or install", "Fix", "Break"]) :
      ∀ rest, isPathSentence (verb ++ rest) = false := by
    intro rest
    simp only [List.mem_cons, List.not_mem_nil, or_false] at hverb
    rcases hverb with rfl | rfl | rfl <;>
      simp [isPathSentence, pathVerb, String.toList_append, List.isPrefixOf]
  have haffirmation (p : Bool) :
      (if p = true then ["All dependencies resolved successfully."]
      else []).filter isPathSentence = [] := by
    cases p <;> decide
  unfold recommendations
  simp only [List.filter_append, haffirmation, List.append_nil, List.nil_append,
    filter_sentence_of_other "Create or install" (hother _ (by simp)),
    filter_sentence_of_other "Fix" (hother _ (by simp)),
    filter_sentence_of_other "Break" (hother _ (by simp))]
  exact filter_sentence_of_path _

theorem squeeze_rows {ids : List String} (h : ids.Nodup) {count : String → Nat}
    (hcount : ∀ id ∈ ids, 0 < count id) :
    squeeze (ids.flatMap fun id => List.replicate (count id) id) = ids := by
  induction ids with
  | nil => rfl
  | cons id rest ih =>
      obtain ⟨hnew, hrest⟩ := List.nodup_cons.mp h
      obtain ⟨hfirst, hlater⟩ := List.forall_mem_cons.mp hcount
      obtain ⟨n, hn⟩ := Nat.exists_eq_succ_of_ne_zero hfirst.ne'
      rw [List.flatMap_cons, hn,
        squeeze_replicate_append (notMem_rows hnew count), ih hrest hlater]

theorem squeeze_pathConflicts (ds : List ResolvedDependency) :
    squeeze ((pathConflicts ds).map Conflict.dependencyId) =
      conflictIds ds := by
  have hconflict := inConflict_conflictIds ds
  rw [pathConflicts_eq, List.map_flatMap]
  simp only [List.map_replicate, Conflict.ofKind]
  refine squeeze_rows hconflict.nodup fun id hid => ?_
  obtain ⟨d, hd, -, -, hdid, -⟩ := (hconflict.mem_iff id).mp hid
  exact List.countP_pos_iff.mpr ⟨d, hd, by simpa using hdid⟩

/-- Conflicts stand in groups, a group for each id with several paths in the
order of the first entries, and a conflict in it for each entry of the id.  So
the advice on paths, which leaves out equal neighbours only, names each such id
once. -/
theorem pathConflicts_grouped (ds : List ResolvedDependency) :
    ∃ (ids : List String) (paths : String → List String), InConflict ds ids ∧
      (∀ id, FirstOccurrences
        ((ds.filter fun d => d.id == id).map ResolvedDependency.physicalPath)
        (paths id)) ∧
      (pathConflicts ds = ids.flatMap fun id =>
        List.replicate (ds.countP fun d => d.id == id)
          (.ofKind id .pathConflict ("'" ++ id ++ "' resolves to " ++
            toString (paths id).length ++ " different paths") (paths id))) ∧
      ∀ (missing : List ResolvedDependency) (others : List Conflict)
        (cycles : List (List String)),
        (∀ conflict ∈ others, conflict.kind ≠ .pathConflict) →
          (recommendations missing (pathConflicts ds ++ others) cycles).filter
            isPathSentence =
            if ids = [] then [] else [pathSentence ids] := by
  refine ⟨conflictIds ds, pathsOf ds, inConflict_conflictIds ds,
    fun id => firstOccurrences_distinct _, pathConflicts_eq ds, ?_⟩
  intro missing others cycles hothers
  have hids : idsOf (pathConflicts ds ++ others) .pathConflict =
      (pathConflicts ds).map Conflict.dependencyId := by
    have hnone :
        others.filter (fun conflict => conflict.kind == .pathConflict) = [] :=
      List.filter_eq_nil_iff.mpr fun conflict hconflict => by
        simpa using hothers _ hconflict
    rw [idsOf, List.filter_append, hnone, List.append_nil,
      filter_kind fun e he => kind_of_mem_pathConflicts he, if_pos rfl]
  rw [filter_recommendations, hids, squeeze_pathConflicts]

/-! ## Two agents that take turns -/

def found (name path : String) : ResolvedDependency :=
  { agentFound path with
    id := Reference.key .agent name
    name := name
    logicalReference := Reference.key .agent name }

def interleaved : List ResolvedDependency :=
  [found "a" "a1.md", found "b" "b1.md", found "a" "a2.md", found "c" "c.md",
    found "b" "b2.md", found "a" "a1.md"]

theorem pathConflicts_grouped_interleaved :
    ∃ ids : List String, InConflict interleaved ids ∧ "agent:a" ∈ ids ∧
    "agent:b" ∈ ids ∧
      (recommendations [] (pathConflicts interleaved ++
        [circularConflict ["w", "w"]]) [["w", "w"]]).filter isPathSentence =
        [pathSentence ids] := by
  obtain ⟨ids, paths, hids, -, -, hadvice⟩ := pathConflicts_grouped interleaved
  have hmem (name first second : String)
      (hfirst : found name first ∈ interleaved)
      (hsecond : found name second ∈ interleaved) (hne : first ≠ second) :
      Reference.key .agent name ∈ ids :=
    (hids.mem_iff _).mpr ⟨_, hfirst, _, hsecond, rfl, rfl, hne⟩
  have ha : "agent:a" ∈ ids :=
    hmem "a" "a1.md" "a2.md" (by decide) (by decide) (by decide)
  have hb : "agent:b" ∈ ids :=
    hmem "b" "b1.md" "b2.md" (by decide) (by decide) (by decide)
  have hcircular :=
    hadvice [] [circularConflict ["w", "w"]] [["w", "w"]] (by decide)
  rw [if_neg (List.ne_nil_of_mem ha)] at hcircular
  exact ⟨ids, hids, ha, hb, hcircular⟩

example : recommendations [] (pathConflicts interleaved) [] =
    [pathSentence ["agent:a", "agent:b"]] := by
  decide +kernel

end Resolution

end Workflows
