import Workflows.Proofs.Analysis.Validation
import Workflows.Proofs.Files.SystemPath
import Workflows.Proofs.Resolution.Location
import Workflows.Resolution.SystemBase

/-!
# A base that need not be text

The validation finds at the path of an entry what the resolver found, where the
place of the entry can be read from its stored path.  That is so for every text.
The text that stands for any other path means another place, and in front of it
the base is put once more.
-/

namespace Workflows

open Resolution

/-- The node stands for a dependency of the kind, and nothing says yet where
that is. -/
def Node.Awaits (n : Node) (kind : DependencyKind) : Prop :=
  n.path = none ∧ n.kind.dependency? = some kind

/-! ## Marks and entries -/

structure Node.Confirms (n : Node) (d : ResolvedDependency) : Prop where
  validated_iff : n.validated = true ↔ d.resolved = true
  notFound_iff : (∃ i ∈ n.issues, i.code = IssueCode.pathNotFound) ↔
    d.errorCode = some ResolvedDependency.notFoundCode
  notAccessible_iff : (∃ i ∈ n.issues, i.code = IssueCode.pathNotAccessible) ↔
    d.errorCode = some ResolvedDependency.notAccessibleCode
  message : ∀ i ∈ n.issues, d.error = some i.message

section

variable {n : Node} {d : ResolvedDependency}

theorem Node.Confirms.of_nothing (hissues : n.issues = [])
    (hvalidated : n.validated = true) (hresolved : d.resolved = true)
    (hcode : d.errorCode = none) : n.Confirms d where
  validated_iff := iff_of_true hvalidated hresolved
  notFound_iff := by simp [hissues, hcode]
  notAccessible_iff := by simp [hissues, hcode]
  message := by simp [hissues]

theorem Node.Confirms.of_notFound {i : Issue} (hissues : n.issues = [i])
    (hvalidated : n.validated = false) (hresolved : d.resolved = false)
    (hissue : i.code = IssueCode.pathNotFound)
    (hcode : d.errorCode = some ResolvedDependency.notFoundCode)
    (hmessage : d.error = some i.message) : n.Confirms d where
  validated_iff := by simp [hvalidated, hresolved]
  notFound_iff := by simp [hissues, hissue, hcode]
  notAccessible_iff := by
    simp only [hissues, List.mem_singleton, exists_eq_left, hissue, hcode]
    decide
  message := by simpa [hissues] using hmessage

theorem Node.Confirms.of_notAccessible {i : Issue} (hissues : n.issues = [i])
    (hvalidated : n.validated = false) (hresolved : d.resolved = false)
    (hissue : i.code = IssueCode.pathNotAccessible)
    (hcode : d.errorCode = some ResolvedDependency.notAccessibleCode)
    (hmessage : d.error = some i.message) : n.Confirms d where
  validated_iff := by simp [hvalidated, hresolved]
  notFound_iff := by
    simp only [hissues, List.mem_singleton, exists_eq_left, hissue, hcode]
    decide
  notAccessible_iff := by simp [hissues, hissue, hcode]
  message := by simpa [hissues] using hmessage

end

theorem name_of_dependency? {k : NodeKind} {kind : DependencyKind}
    (h : k.dependency? = some kind) : k.name = kind.name := by
  cases k <;> cases h <;> rfl

/-- Whatever an inspection reports: the marks that the node gets for it say what
the entry says. -/
theorem confirms_marked {n : Node} {kind : DependencyKind}
    (hkind : n.kind.dependency? = some kind) (files : FileTree)
    (path physicalPath : String) (report : PathReport) :
    (n.marked (inspectionIssues n path (.ok report))).Confirms
      (entryOf files kind n.name physicalPath report) := by
  have hname := name_of_dependency? hkind
  have hnotFound (s : String) :
      s ++ "'" ++ " not found at " = s ++ "' not found at " := by
    rw [String.append_assoc]
    rfl
  have hnotAccessible (s : String) :
      s ++ "'" ++ " is not accessible at " =
        s ++ "' is not accessible at " := by
    rw [String.append_assoc]
    rfl
  cases hexist : report.exist with
  | false =>
      have hissues : inspectionIssues n path (.ok report) =
          [(Issue.error IssueCode.pathNotFound
            (kind.name ++ " '" ++ n.name ++ "' not found at " ++
              report.path)).located path] := by
        simp [inspectionIssues, hexist, hname, hnotFound]
      rw [hissues]
      refine .of_notFound rfl rfl ?_ rfl ?_ ?_ <;>
        simp [entryOf, hexist, ResolvedDependency.fail, PathReport.isUsable,
          Issue.error, Issue.located]
  | true =>
      cases haccessible : report.accessible with
      | false =>
          have hissues : inspectionIssues n path (.ok report) =
              [(Issue.error IssueCode.pathNotAccessible
                (kind.name ++ " '" ++ n.name ++ "' is not accessible at " ++
                  report.path)).located path] := by
            simp [inspectionIssues, hexist, haccessible, hname, hnotAccessible]
          rw [hissues]
          refine .of_notAccessible rfl rfl ?_ rfl ?_ ?_ <;>
            simp [entryOf, hexist, haccessible, ResolvedDependency.fail,
              PathReport.isUsable, Issue.error, Issue.located]
      | true =>
          have hissues : inspectionIssues n path (.ok report) = [] := by
            simp [inspectionIssues, hexist, haccessible]
          rw [hissues]
          refine .of_nothing rfl rfl ?_ ?_ <;>
            simp [entryOf, hexist, haccessible, PathReport.isUsable]

theorem Node.refreshed_of_path {n : Node} {path : String}
    (h : n.path = some path) (files : FileTree) (base : String) :
    n.refreshed files base =
      n.marked (inspectionIssues n path
        (files.inspect (Path.join base path))) := by
  rw [refreshed, findings, h]
  rfl

namespace Resolution

open SystemPath

variable {c : Config} {base : SystemPath} {files : FileTree}
  {inspect : Inspection} {kind : DependencyKind} {name : String}
  {d : ResolvedDependency}

/-! ## A base that is text -/

section Text

theorem systemLocation_ofText (c : Config) (kind : DependencyKind)
    (name : String) :
    systemLocation c (ofText c.basePath) kind name =
      ofText (c.locationOf kind name) :=
  join_ofText _ _

theorem isSystemConventional_ofText (c : Config) (d : ResolvedDependency) :
    isSystemConventional c (ofText c.basePath) d = isConventional c d := by
  rw [isSystemConventional, systemLocation_ofText, samePlace_ofText,
    isConventional]

theorem systemLocate_ofText (c : Config) (d : ResolvedDependency) :
    systemLocate c (ofText c.basePath) d = ofText (locate c d) := by
  rw [systemLocate, isSystemConventional_ofText, locate,
    systemLocation_ofText, join_ofText]
  split <;> rfl

theorem pathFromSystemBase_ofText (c : Config) (d : ResolvedDependency) :
    pathFromSystemBase c (ofText c.basePath) d = pathFromBase c d := by
  rw [pathFromSystemBase, isSystemConventional_ofText, pathFromBase]

theorem systemLookUp_ofText (c : Config) (files : FileTree)
    (kind : DependencyKind) (name : String) (path : Option String) :
    systemLookUp c (ofText c.basePath) files (fun p => files.inspect p.shown)
      kind name path = lookUp c files kind name path := by
  cases path with
  | none =>
      simp only [systemLookUp, lookUp, systemPlaces, placesOf,
        systemLocation_ofText, shown_ofText]
  | some path =>
      simp only [systemLookUp, lookUp, systemPlaces, placesOf, join_ofText,
        shown_ofText]
      rfl

theorem systemChecked_ofText (c : Config) (files : FileTree) (n : Node)
    (d : ResolvedDependency) :
    systemChecked c (ofText c.basePath) (fun p => files.inspect p.shown) n d =
      { n with path := some (pathFromBase c d) }.refreshed files
        c.basePath := by
  rw [Node.refreshed_of_path rfl, systemChecked, pathFromSystemBase_ofText,
    join_ofText, shown_ofText]

end Text

/-! ## Any base -/

theorem systemLookUp_eq_ok
    (h : systemLookUp c base files inspect kind name none = .ok d) :
    ∃ report, inspect (systemLocation c base kind name) = .ok report ∧
      d = entryOf files kind name (systemLocation c base kind name).shown
        report := by
  rw [systemLookUp] at h
  obtain ⟨report, hreport, hd⟩ := exists_of_bind_ok h
  cases hd
  exact ⟨report, hreport, rfl⟩

theorem samePlace_pathFromSystemBase (c : Config) (base : SystemPath)
    (d : ResolvedDependency) :
    samePlace (join base (ofText (pathFromSystemBase c base d)))
      (systemLocate c base d) = true := by
  rw [pathFromSystemBase, systemLocate]
  split <;> exact samePlace_self _

theorem isSystemConventional_entryOf (report : PathReport) :
    isSystemConventional c base (entryOf files kind name
      (systemLocation c base kind name).shown report) =
      (systemLocation c base kind name).isText := by
  obtain ⟨hkind, hname, hpath⟩ := place_entryOf files kind name
    (systemLocation c base kind name).shown report
  rw [isSystemConventional, hkind, hname, hpath, Bool.eq_iff_iff,
    samePlace_shown_iff]

theorem confirms_systemChecked {n : Node}
    (hkind : n.kind.dependency? = some kind)
    (htext : (systemLocation c base kind n.name).isText = true)
    (h : systemLookUp c base files inspect kind n.name none = .ok d) :
    (systemChecked c base inspect n d).Confirms d := by
  obtain ⟨report, hreport, rfl⟩ := systemLookUp_eq_ok h
  have hpath : pathFromSystemBase c base (entryOf files kind n.name
      (systemLocation c base kind n.name).shown report) =
      c.pathOf kind n.name := by
    obtain ⟨hkind, hname, -⟩ := place_entryOf files kind n.name
      (systemLocation c base kind n.name).shown report
    rw [pathFromSystemBase, isSystemConventional_entryOf, if_pos htext, hkind,
      hname]
  have hreport' : inspect (join base (ofText (c.pathOf kind n.name))) =
      .ok report :=
    hreport
  rw [systemChecked, hpath, hreport']
  exact confirms_marked (n := { n with path := some (c.pathOf kind n.name) })
    hkind files _ _ report

/-- A file at one place of the system and nothing else. -/
def onlyFileAt (location : SystemPath) : Inspection := fun p =>
  .ok (if samePlace p location then .opened p.shown .file 0o644
    else .missing p.shown)

/-- An entry that is resolved, and a node that the validation finds no file
for. -/
theorem exists_not_validated {n : Node} (files : FileTree)
    (htext : (systemLocation c base kind n.name).isText = false) :
    ∃ inspect d,
      systemLookUp c base files inspect kind n.name none = .ok d ∧
        d.resolved = true ∧
        (systemChecked c base inspect n d).validated = false := by
  let location := systemLocation c base kind n.name
  let report : PathReport := .opened location.shown .file 0o644
  have hfound : onlyFileAt location location = .ok report := by
    rw [onlyFileAt, if_pos (samePlace_self location)]
  have hresolved : (entryOf files kind n.name location.shown report).resolved =
      true := by
    simp [entryOf, report, PathReport.opened, PathReport.isUsable]
  have hpath : pathFromSystemBase c base
      (entryOf files kind n.name location.shown report) = location.shown := by
    rw [pathFromSystemBase, isSystemConventional_entryOf, htext]
    exact (place_entryOf files kind n.name location.shown report).2.2
  have hmissed : onlyFileAt location (join base (ofText location.shown)) =
      .ok (.missing (join base (ofText location.shown)).shown) := by
    rw [onlyFileAt, if_neg]
    exact Bool.eq_false_iff.mp
      (not_samePlace_join_shown (isText_ofText _) htext)
  refine ⟨onlyFileAt location, entryOf files kind n.name location.shown report,
    ?_, hresolved, ?_⟩
  · rw [systemLookUp]
    exact congrArg (· >>= fun found =>
      pure (entryOf files kind n.name location.shown found)) hfound
  · rw [systemChecked, hpath, hmissed]
    rfl

theorem confirms_systemChecked_iff {n : Node} (hawaits : n.Awaits kind) :
    (∀ files inspect d,
      systemLookUp c base files inspect kind n.name none = .ok d →
        (systemChecked c base inspect n d).Confirms d) ↔
      (systemLocation c base kind n.name).isText = true := by
  refine ⟨fun hconfirms => ?_, fun htext files inspect d =>
    confirms_systemChecked hawaits.2 htext⟩
  by_contra hnot
  obtain ⟨inspect, d, hlookUp, hresolved, hvalidated⟩ :=
    exists_not_validated .empty (Bool.eq_false_iff.mpr hnot)
  have hiff := (hconfirms .empty inspect d hlookUp).validated_iff
  rw [hvalidated, hresolved] at hiff
  cases hiff.mpr rfl

end Resolution

end Workflows
