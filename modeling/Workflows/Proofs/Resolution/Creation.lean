import Workflows.Proofs.Files.Placeholders
import Workflows.Proofs.Resolution.Footprint

/-!
# Entries that placeholders were created for

A decision to create placeholders marks the entries of its id as usable without
looking again.  It is right about what was not there before.  What was there
stays as it is, so an entry for it is usable only if it may be read; and a
resource with an empty path is marked although nothing is made for it.
-/

namespace Workflows.Resolution

variable {c : Config} {decision : Decision} {files : FileTree}
  {slots : List Slot} {d d' : ResolvedDependency}

/-- A resource with an empty path, for which there is no directory to make. -/
structure Nowhere (c : Config) (d : ResolvedDependency) : Prop where
  kind_eq : d.kind = .resource
  locate_eq : locate c d = ""

theorem placeholderOf_eq_directory_iff :
    placeholderOf d = .directory ↔ d.kind = .resource := by
  unfold placeholderOf
  cases d.kind <;> simp

/-! ## One entry -/

theorem leads_decideEntry (haction : decision.action = .createPlaceholder)
    (h : (decideEntry c decision files d).2 = .ok d') :
    d' = withPlaceholder d decision.newVersion ∧
      ((decideEntry c decision files d).1.Leads (locate c d') ∨
        Nowhere c d') := by
  rw [decideEntry_createPlaceholder haction] at h ⊢
  cases hput : (files.putPlaceholder (locate c d) (placeholderOf d)).2 with
  | error cause =>
      rw [hput] at h
      cases h
  | ok written =>
      rw [hput] at h
      cases h
      refine ⟨rfl, (FileTree.leads_of_putPlaceholder hput).imp_right ?_⟩
      exact fun ⟨hdirectory, hempty⟩ =>
        ⟨placeholderOf_eq_directory_iff.mp hdirectory, hempty⟩

/-! ## All entries -/

theorem leads_decideSlots (haction : decision.action = .createPlaceholder)
    {ds : List ResolvedDependency}
    (h : (decideSlots c decision files slots).2.2 = .ok ds) :
    ∀ d' ∈ ds, (∃ d, d' = withPlaceholder d decision.newVersion) ∧
      ((decideSlots c decision files slots).1.Leads (locate c d') ∨
        Nowhere c d') := by
  induction slots generalizing files ds with
  | nil =>
      cases h
      exact fun d' hd' => nomatch hd'
  | cons slot rest ih =>
      rw [decideSlots] at h ⊢
      split at h
      · next d _ _ =>
          have hleads : ∀ d', (decideEntry c decision files d).2 = .ok d' → _ :=
            fun d' => leads_decideEntry haction
          generalize decideEntry c decision files d = outcome at h hleads ⊢
          obtain ⟨files', cause | updated⟩ := outcome
          · cases h
          · have hgrows := (adds_decideSlots c decision files' rest).toGrows
            have hrest := @ih files'
            dsimp only at h ⊢
            generalize decideSlots c decision files' rest = left
              at h hgrows hrest ⊢
            obtain ⟨last, slots', cause | others⟩ := left
            · cases h
            · cases h
              obtain ⟨hwritten, hfirst⟩ := hleads updated rfl
              intro d' hd'
              rcases List.mem_cons.mp hd' with rfl | hother
              · exact ⟨⟨d, hwritten⟩, hfirst.imp_left hgrows.leads⟩
              · exact hrest rfl d' hother
      · exact ih h

/-! ## The files afterwards -/

/-- A decision to create placeholders marks each entry as usable.  What it is
marked for is there, unless it is a resource with an empty path, and can be used
unless it was there before and may not be read. -/
theorem created_usable_iff (c : Config) (decision : Decision) (r : Registry)
    (ds : List ResolvedDependency)
    (haction : decision.action = .createPlaceholder)
    (h : (carryOut c decision r).2 = .ok ds) :
    ∀ d ∈ ds, d.resolved = true ∧ d.presence.exist = true ∧
    d.presence.accessible = true ∧
      ∃ report, (carryOut c decision r).1.files.inspect (locate c d) =
        .ok report ∧
        (report.exist = true ↔ ¬ Nowhere c d) ∧
        (report.isUsable = true ↔ ¬ Nowhere c d ∧
          ∀ place e, r.files.find? place = some e →
            (carryOut c decision r).1.files.locate (locate c d) =
              .ok (place, e) →
            e.mayRead = true) := by
  have hslots := decideSlots_of_carryOut h
  have hadds := adds_decideSlots c decision r.files r.cache.slots
  intro d hd
  obtain ⟨⟨before, rfl⟩, hleads⟩ := leads_decideSlots haction hslots d hd
  rw [files_carryOut]
  generalize (decideSlots c decision r.files r.cache.slots).1 = files
    at hadds hleads ⊢
  refine ⟨rfl, rfl, rfl, ?_⟩
  generalize withPlaceholder before decision.newVersion = d at hleads ⊢
  rcases hleads with hleads | hnowhere
  · have hplaced : ¬ Nowhere c d := by
      rintro ⟨-, hempty⟩
      rw [hempty] at hleads
      exact files.not_leads_empty hleads
    obtain ⟨place, e, hlocate⟩ := hleads
    obtain ⟨report, hinspect, hexist, husable⟩ :=
      FileTree.exists_inspect_of_locate hlocate
    refine ⟨report, hinspect, iff_of_true hexist hplaced, ?_⟩
    rw [husable, hadds.mayRead_iff hlocate, and_iff_right hplaced]
  · have hinspect : files.inspect (locate c d) = .ok (.missing "") := by
      rw [hnowhere.locate_eq]
      rfl
    exact ⟨_, hinspect, iff_of_false nofun (not_not.mpr hnowhere),
      iff_of_false nofun fun hand => hand.1 hnowhere⟩

/-! ## A file that may not be read -/

def locked : FileTree :=
  FileTree.empty.plant ["work", "locked.md"] (.file (.text "") 0)

def lockedAndMissing : Session :=
  [(locked, .inquire (.dependency .agent "h" (some "locked.md"))),
    (locked, .inquire (.dependency .agent "h" (some "new.md")))]

def markedUsable (kind : DependencyKind) (name path : String) :
    ResolvedDependency where
  id := Reference.key kind name
  kind := kind
  name := name
  logicalReference := Reference.key kind name
  physicalPath := path
  resolved := true
  error := none
  errorCode := none
  presence := ⟨true, true, none⟩

theorem carryOut_locked :
    (carryOut .standard creation ⟨locked, lockedAndMissing.cache .standard⟩).2 =
      .ok [markedUsable .agent "h" "locked.md",
        markedUsable .agent "h" "new.md"] := by
  decide +kernel

/-- Both entries are marked as usable, and only the one with a new document
is. -/
theorem created_usable_iff_locked :
    let left :=
      (carryOut .standard creation ⟨locked, lockedAndMissing.cache .standard⟩).1
    (∃ report, left.files.inspect "./locked.md" = .ok report ∧
      report.isUsable = false) ∧
      ∃ report, left.files.inspect "./new.md" = .ok report ∧
      report.isUsable = true := by
  intro left
  have hall := created_usable_iff .standard creation
    ⟨locked, lockedAndMissing.cache .standard⟩ _ rfl carryOut_locked
  obtain ⟨-, -, -, kept, hkept, -, hlocked⟩ := hall _ List.mem_cons_self
  obtain ⟨-, -, -, made, hmade, -, hnew⟩ :=
    hall _ (List.mem_cons_of_mem _ List.mem_cons_self)
  refine ⟨⟨kept, hkept, ?_⟩, made, hmade, ?_⟩
  · refine Bool.eq_false_iff.mpr fun husable => ?_
    have hread :=
      (hlocked.mp husable).2 ["work", "locked.md"] (.file (.text "") 0)
      (by decide +kernel) (by decide +kernel)
    exact absurd hread (by decide)
  · have hlocate : left.files.locate "./new.md" = .ok (["work", "new.md"],
        .newFile (.text (Placeholder.documentText "h" "agent"))) := by
      decide +kernel
    refine hnew.mpr ⟨fun hnowhere => absurd hnowhere.kind_eq (by decide), ?_⟩
    intro place e hfound hnow
    have hplace := hlocate.symm.trans hnow
    cases hplace
    rw [show locked.find? ["work", "new.md"] = none by decide +kernel] at hfound
    cases hfound

def unnamed : Session :=
  [(.empty, .inquire (.dependency .resource "templates" (some "")))]

theorem created_not_usable :
    ¬ ∀ (c : Config) (decision : Decision) (r : Registry)
      (ds : List ResolvedDependency), r.cache.Reached c →
      decision.action = .createPlaceholder →
      (carryOut c decision r).2 = .ok ds →
      ∀ d ∈ ds, ∃ report,
        (carryOut c decision r).1.files.inspect (locate c d) = .ok report ∧
        report.isUsable = true := by
  intro h
  have hreached : (unnamed.cache (.ofBase "")).Reached (.ofBase "") :=
    unnamed.steps_cacheFrom (.ofBase "") .empty
  have hrun :
      (carryOut (.ofBase "") ⟨"resource:templates", .createPlaceholder, none,
        none⟩ ⟨.empty, unnamed.cache (.ofBase "")⟩).2 =
        .ok [markedUsable .resource "templates" ""] := by
    decide +kernel
  obtain ⟨report, hreport, husable⟩ :=
    h _ _ _ _ hreached rfl hrun _ List.mem_cons_self
  have hmissing :
      (carryOut (.ofBase "") ⟨"resource:templates", .createPlaceholder, none,
        none⟩ ⟨.empty, unnamed.cache (.ofBase "")⟩).1.files.inspect
        (locate (.ofBase "") (markedUsable .resource "templates" "")) =
        .ok (.missing "") := by
    decide +kernel
  rw [hmissing] at hreport
  cases hreport
  cases husable

end Workflows.Resolution
