import Mathlib.Data.List.Forall2
import Workflows.Proofs.Resolution.FailedDecision
import Workflows.Proofs.Resolution.Location
import Workflows.Proofs.Resolution.Work

/-!
# Entries that were replaced

A decision to replace inspects the new path once for each entry of its id, as a
first look-up of that path would.  What it writes is what the look-up finds,
except for the version: that of the document at the new path is not read, and
the entry keeps the one it had.
-/

namespace Workflows.Resolution

variable {c : Config} {decision : Decision} {files : FileTree}
  {slots : List Slot}

theorem forall₂_decideEntry (haction : decision.action ≠ .createPlaceholder)
    {ds : List ResolvedDependency}
    (h : (decideSlots c decision files slots).2.2 = .ok ds) :
    List.Forall₂ (fun d d' => (decideEntry c decision files d).2 = .ok d')
      ((slots.filter fun s => s.key.id == decision.dependencyId).filterMap
        Slot.entry) ds := by
  induction slots generalizing ds with
  | nil =>
      cases h
      exact .nil
  | cons slot rest ih =>
      obtain ⟨key, entry⟩ := slot
      rw [decideSlots] at h
      cases hid : key.id == decision.dependencyId with
      | false =>
          simp only [hid, List.filter_cons_of_neg, Bool.false_eq_true,
            not_false_eq_true] at h ⊢
          cases entry <;> exact ih h
      | true =>
          simp only [hid, List.filter_cons_of_pos] at h ⊢
          cases entry with
          | none => exact ih h
          | some d =>
              have hfiles : (decideEntry c decision files d).1 = files :=
                files_decideEntry haction
              rcases hentry : decideEntry c decision files d with
                  ⟨files', cause | d'⟩
              · simp only [hentry] at h
                cases h
              · rw [hentry] at hfiles
                obtain rfl : files' = files := hfiles
                simp only [hentry] at h
                generalize hrest :
                  decideSlots c decision files' rest = outcome at h ih
                obtain ⟨_, _, cause | updated⟩ := outcome
                · cases h
                · cases h
                  exact .cons (by rw [hentry]) (ih rfl)

theorem decideEntry_replace {path : String}
    (haction : decision.action = .replace)
    (hpath : decision.replacementPath = some path) (d : ResolvedDependency) :
    (decideEntry c decision files d).2 =
      (files.inspect (c.underBase path)).map
        (withReplacement d path decision.newVersion) := by
  simp only [decideEntry, haction, hpath]

/-! ## What is found at a path -/

structure SameFinding (d e : ResolvedDependency) : Prop where
  physicalPath_eq : d.physicalPath = e.physicalPath
  resolved_eq : d.resolved = e.resolved
  presence_eq : d.presence = e.presence
  errorCode_eq : d.errorCode = e.errorCode

/-- An entry that was replaced tells what a fresh one tells, but for the
version, which is that of the entry before. -/
structure Replaced (old new fresh : ResolvedDependency) : Prop where
  kind_eq : new.kind = old.kind
  name_eq : new.name = old.name
  physicalPath_eq : new.physicalPath = fresh.physicalPath
  resolved_eq : new.resolved = fresh.resolved
  exist_eq : new.presence.exist = fresh.presence.exist
  accessible_eq : new.presence.accessible = fresh.presence.accessible
  version_eq : new.presence.version = old.presence.version
  errorCode_eq : new.errorCode = fresh.errorCode

theorem Replaced.sameFinding_iff {old new fresh : ResolvedDependency}
    (h : Replaced old new fresh) :
    SameFinding new fresh ↔ old.presence.version = fresh.presence.version := by
  refine ⟨fun hsame => ?_, fun hversion => ?_⟩
  · rw [← h.version_eq, hsame.presence_eq]
  · refine ⟨h.physicalPath_eq, h.resolved_eq, ?_, h.errorCode_eq⟩
    have hexist := h.exist_eq
    have haccessible := h.accessible_eq
    have hkept := h.version_eq.trans hversion
    generalize new.presence = found at hexist haccessible hkept ⊢
    generalize fresh.presence = looked at hexist haccessible hkept ⊢
    cases found
    cases looked
    simp_all

theorem replaced_withReplacement (files : FileTree) (old : ResolvedDependency)
    (path : String) {report : PathReport} (h : report.Inspected) :
    Replaced old (withReplacement old path none report)
      (entryOf files old.kind old.name path report) := by
  cases h <;> exact ⟨rfl, rfl, rfl, rfl, rfl, rfl, rfl, rfl⟩

theorem resolve_given {path : String} {report : PathReport}
    (kind : DependencyKind) (name : String)
    (h : files.inspect (c.underBase path) = .ok report) :
    ∃ left, (resolve c files kind name (some path)).onCache .empty =
      (.ok (entryOf files kind name path report), left) := by
  have hlookUp : lookUp c files kind name (some path) =
      .ok (entryOf files kind name path report) := by
    rw [lookUp, placesOf]
    dsimp only
    rw [h]
    rfl
  have hanswer :
      ((⟨c, files, kind, name, some path⟩ : Request).answer .empty).1 =
      .ok (entryOf files kind name path report) := by
    rw [Request.answer, Cache.answer_fetch]
    exact hlookUp
  rw [onCache_resolve]
  exact ⟨_, Prod.ext hanswer rfl⟩

/-- A decision to replace leaves what a first look-up of the new path finds,
whatever the cache held before.  Only the version stays that of the entry
before, so that all agrees exactly where the version was that of the new
document already. -/
theorem replaced_as_fresh (c : Config) (decision : Decision) (path : String)
    (r : Registry) (ds : List ResolvedDependency)
    (haction : decision.action = .replace)
    (hpath : decision.replacementPath = some path)
    (hversion : decision.newVersion = none)
    (h : (carryOut c decision r).2 = .ok ds) :
    List.Forall₂ (fun old new => ∃ fresh left,
        (resolve c r.files new.kind new.name (some path)).onCache .empty =
        (.ok fresh, left) ∧
        Replaced old new fresh ∧
        (SameFinding new fresh ↔ old.presence.version = fresh.presence.version))
      (r.cache.entriesOf decision.dependencyId) ds := by
  have hslots := decideSlots_of_carryOut h
  refine (forall₂_decideEntry (by simp [haction]) hslots).imp
    fun old new hentry => ?_
  rw [decideEntry_replace haction hpath, hversion] at hentry
  cases hreport : r.files.inspect (c.underBase path) with
  | error cause =>
      rw [hreport] at hentry
      cases hentry
  | ok report =>
      rw [hreport] at hentry
      cases hentry
      have hreplaced := replaced_withReplacement r.files old path
        (FileTree.inspected_of_inspect hreport)
      obtain ⟨left, hfresh⟩ := resolve_given old.kind old.name hreport
      refine ⟨_, left, ?_, hreplaced, hreplaced.sameFinding_iff⟩
      rw [hreplaced.kind_eq, hreplaced.name_eq]
      exact hfresh

/-! ## A document of another version -/

def versioned (version : String) : FileEntry :=
  .newFile (.text ("---\nversion: " ++ version ++ "\n---\n"))

def twoVersions : FileTree :=
  (FileTree.empty.plant ["work", "old.md"] (versioned "1.0.0")).plant
    ["work", "new.md"] (versioned "2.0.0")

def firstVersion : Session :=
  [(twoVersions, .inquire (.dependency .agent "helper" (some "old.md")))]

def renewal : Decision := ⟨"agent:helper", .replace, none, some "new.md"⟩

def helper (path version : String) : ResolvedDependency where
  id := "agent:helper"
  kind := .agent
  name := "helper"
  logicalReference := "agent:helper"
  physicalPath := path
  resolved := true
  error := none
  errorCode := none
  presence := ⟨true, true, some version⟩

theorem carryOut_renewal :
    (carryOut .standard renewal ⟨twoVersions, firstVersion.cache .standard⟩).2 =
      .ok [helper "new.md" "1.0.0"] := by
  decide +kernel

theorem not_sameFinding_of_resolve {fresh : ResolvedDependency} {left : Cache}
    (h : (resolve .standard twoVersions .agent "helper" (some "new.md")).onCache
      .empty =
      (.ok fresh, left)) : ¬ SameFinding (helper "new.md" "1.0.0") fresh := by
  have hfresh :
      ((resolve .standard twoVersions .agent "helper" (some "new.md")).onCache
        .empty).1 = .ok (helper "new.md" "2.0.0") := by
    decide +kernel
  rw [h] at hfresh
  cases hfresh
  exact fun hsame => absurd hsame.presence_eq (by decide)

/-- The entry is at the new path and has the version of the document at the old
one. -/
theorem replaced_as_fresh_twoVersions :
    ∃ old fresh left,
      (resolve .standard twoVersions .agent "helper" (some "new.md")).onCache
      .empty = (.ok fresh, left) ∧
      Replaced old (helper "new.md" "1.0.0") fresh ∧
      ¬ SameFinding (helper "new.md" "1.0.0") fresh := by
  have hall := replaced_as_fresh .standard renewal "new.md"
    ⟨twoVersions, firstVersion.cache .standard⟩ _ rfl rfl rfl carryOut_renewal
  obtain ⟨old, -, ⟨fresh, left, hfresh, hreplaced, -⟩, -, -⟩ :=
    List.forall₂_cons_right_iff.mp hall
  exact ⟨old, fresh, left, hfresh, hreplaced, not_sameFinding_of_resolve hfresh⟩

theorem replaced_version_stale :
    ¬ ∀ (c : Config) (decision : Decision) (path : String) (r : Registry)
        (ds : List ResolvedDependency), r.cache.Reached c →
      decision.action = .replace → decision.replacementPath = some path →
      decision.newVersion = none → (carryOut c decision r).2 = .ok ds →
      ∀ d ∈ ds, ∃ fresh left,
        (resolve c r.files d.kind d.name (some path)).onCache .empty =
        (.ok fresh, left) ∧
        SameFinding d fresh := by
  intro h
  have hreached : (firstVersion.cache .standard).Reached .standard :=
    firstVersion.steps_cacheFrom .standard .empty
  obtain ⟨fresh, left, hfresh, hsame⟩ := h .standard renewal "new.md"
    ⟨twoVersions, firstVersion.cache .standard⟩ _ hreached
    rfl rfl rfl carryOut_renewal _ List.mem_cons_self
  exact not_sameFinding_of_resolve hfresh hsame

end Workflows.Resolution
