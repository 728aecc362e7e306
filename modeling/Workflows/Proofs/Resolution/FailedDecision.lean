import Workflows.Proofs.Resolution.Entries

/-!
# Decisions that fail

Of the four actions only the writing of placeholders asks the files for
something else at each entry.  The others fail at the first entry of their id or
at none, so they leave all entries as they were.  Where a placeholder cannot be
written, the entries before it are of placeholders that were.
-/

namespace Workflows

/-- Writes placeholders one after the other; the first that is refused ends
it. -/
def FileTree.putPlaceholders (t : FileTree) :
    List (String × Placeholder) → FileTree × Except ResolutionError Unit
  | [] => (t, .ok ())
  | (path, p) :: rest =>
      match t.putPlaceholder path p with
      | (t, .error cause) => (t, .error cause)
      | (t, .ok ()) => t.putPlaceholders rest

namespace Resolution

variable {c : Config} {decision : Decision} {files : FileTree}
  {slots slots' : List Slot} {d d' : ResolvedDependency}
  {cause : ResolutionError}

/-! ## Actions that do not write -/

theorem decideEntry_eq_of_error (haction : decision.action ≠ .createPlaceholder)
    (h : (decideEntry c decision files d).2 = .error cause)
    (e : ResolvedDependency) :
    decideEntry c decision files e = (files, .error cause) := by
  rw [decideEntry] at h ⊢
  cases hcase : decision.action with
  | useExisting =>
      rw [hcase] at h
      cases h
  | createPlaceholder => exact absurd hcase haction
  | skip =>
      rw [hcase] at h
      cases h
  | replace =>
      simp only [hcase] at h ⊢
      cases hpath : decision.replacementPath with
      | none =>
          simp only [hpath] at h ⊢
          cases h
          rfl
      | some path =>
          simp only [hpath] at h ⊢
          cases hreport : files.inspect (c.underBase path) with
          | error refusal =>
              rw [hreport] at h
              cases h
              rfl
          | ok report =>
              rw [hreport] at h
              cases h

theorem files_decideEntry (haction : decision.action ≠ .createPlaceholder) :
    (decideEntry c decision files d).1 = files := by
  rw [decideEntry]
  cases hcase : decision.action with
  | useExisting => rfl
  | createPlaceholder => exact absurd hcase haction
  | skip => rfl
  | replace => cases decision.replacementPath <;> rfl

theorem slots_decideSlots_of_refused
    (h : ∀ e, decideEntry c decision files e = (files, .error cause))
    (slots : List Slot) :
    (decideSlots c decision files slots).2.1 = slots := by
  induction slots with
  | nil => rfl
  | cons slot rest ih =>
      rw [decideSlots]
      split
      · rw [h]
      · exact congrArg (slot :: ·) ih

theorem exists_refused (haction : decision.action ≠ .createPlaceholder)
    (h : (decideSlots c decision files slots).2.2 = .error cause) :
    ∃ d, (decideEntry c decision files d).2 = .error cause := by
  induction slots with
  | nil => cases h
  | cons slot rest ih =>
      rw [decideSlots] at h
      split at h
      · next d _ _ =>
          have hfiles : (decideEntry c decision files d).1 = files :=
            files_decideEntry haction
          split at h
          · next _ refusal hentry =>
              cases h
              exact ⟨d, by rw [hentry]⟩
          · next files' updated hentry =>
              -- the files are the same for the entries after this one
              rw [hentry] at hfiles
              obtain rfl : files' = files := hfiles
              refine ih ?_
              generalize decideSlots c decision files' rest = outcome at h ⊢
              obtain ⟨_, _, refusal | ds⟩ := outcome
              · exact h
              · cases h
      · exact ih h

theorem slots_decideSlots_of_error
    (haction : decision.action ≠ .createPlaceholder)
    (h : (decideSlots c decision files slots).2.2 = .error cause) :
    (decideSlots c decision files slots).2.1 = slots := by
  obtain ⟨d, hrefused⟩ := exists_refused haction h
  exact slots_decideSlots_of_refused (decideEntry_eq_of_error haction hrefused)
    slots

/-! ## Placeholders -/

def created (decision : Decision) (slot : Slot) : Slot :=
  if slot.key.id = decision.dependencyId then
    { slot with
      entry := slot.entry.map fun d => withPlaceholder d decision.newVersion }
  else slot

theorem passes_of_not_held {slot : Slot} (h : ∀ d, slot.entry = some d →
    (slot.key.id == decision.dependencyId) = true → False) :
    slot.entry = none ∨ slot.key.id ≠ decision.dependencyId := by
  cases hentry : slot.entry with
  | none => exact .inl rfl
  | some d => exact .inr fun hid => h d hentry (by simpa using hid)

theorem created_eq_self {slot : Slot}
    (h : slot.entry = none ∨ slot.key.id ≠ decision.dependencyId) :
    created decision slot = slot := by
  obtain ⟨key, entry⟩ := slot
  rw [created]
  split
  · next hid =>
      obtain rfl : entry = none := h.resolve_right (not_not.mpr hid)
      rfl
  · rfl

/-- The placeholders of the entries of the decision's id. -/
def placeholders (c : Config) (decision : Decision) (slots : List Slot) :
    List (String × Placeholder) :=
  ((slots.filter fun s => s.key.id == decision.dependencyId).filterMap
    Slot.entry).map fun d => (locate c d, placeholderOf d)

theorem placeholders_cons_of_entry {slot : Slot} (hentry : slot.entry = some d)
    (hid : (slot.key.id == decision.dependencyId) = true) (slots : List Slot) :
    placeholders c decision (slot :: slots) =
      (locate c d, placeholderOf d) :: placeholders c decision slots := by
  simp [placeholders, hid, hentry]

theorem placeholders_cons_of_pass {slot : Slot}
    (h : slot.entry = none ∨ slot.key.id ≠ decision.dependencyId)
    (slots : List Slot) :
    placeholders c decision (slot :: slots) =
      placeholders c decision slots := by
  by_cases hid : slot.key.id = decision.dependencyId
  · have hnone : slot.entry = none := h.resolve_right (not_not.mpr hid)
    simp [placeholders, hid, hnone]
  · simp [placeholders, hid]

theorem decideEntry_createPlaceholder
    (haction : decision.action = .createPlaceholder) :
    decideEntry c decision files d =
      ((files.putPlaceholder (locate c d) (placeholderOf d)).1,
        (files.putPlaceholder (locate c d) (placeholderOf d)).2.map
          fun _ => withPlaceholder d decision.newVersion) := by
  simp only [decideEntry, haction]

theorem decideSlots_split (haction : decision.action = .createPlaceholder)
    (h : (decideSlots c decision files slots).2.2 = .error cause) :
    ∃ done key d rest filesThen, slots = done ++ ⟨key, some d⟩ :: rest ∧
      key.id = decision.dependencyId ∧
      files.putPlaceholders (placeholders c decision done) =
        (filesThen, .ok ()) ∧
      filesThen.putPlaceholder (locate c d) (placeholderOf d) =
        ((decideSlots c decision files slots).1, .error cause) ∧
      (decideSlots c decision files slots).2.1 =
        done.map (created decision) ++ ⟨key, some d⟩ :: rest := by
  induction slots generalizing files with
  | nil => cases h
  | cons slot rest ih =>
      obtain ⟨key, entry⟩ := slot
      rw [decideSlots] at h ⊢
      split at h
      · next d hentry hid =>
          obtain rfl : entry = some d := hentry
          have hkey : key.id = decision.dependencyId := by simpa using hid
          rw [decideEntry_createPlaceholder haction] at h ⊢
          rcases hput : files.putPlaceholder (locate c d) (placeholderOf d) with
            ⟨written, refusal | _⟩
          · -- the first entry of the id is refused
            rw [hput] at h
            cases h
            exact ⟨[], key, d, rest, files, rfl, hkey, rfl, hput, rfl⟩
          · rw [hput] at h
            simp only [Except.map] at h ⊢
            have hrest :
                (decideSlots c decision written rest).2.2 = .error cause := by
              generalize (decideSlots c decision written rest).2.2 = result at h
              cases result <;> cases h
              rfl
            obtain ⟨done, last, e, after, filesThen, rfl,
                hlast, hdone, hrefused, hleft⟩ :=
              ih hrest
            refine ⟨⟨key, some d⟩ :: done, last, e, after, filesThen, rfl,
              hlast, ?_, hrefused, ?_⟩
            · rw [placeholders_cons_of_entry rfl hid, FileTree.putPlaceholders,
                hput]
              exact hdone
            · rw [hleft, List.map_cons, created, if_pos hkey]
              rfl
      · next hpass =>
          have hslot := passes_of_not_held hpass
          obtain ⟨done, last, e, after, filesThen, rfl, hlast, hdone, hrefused,
              hleft⟩ := ih h
          refine ⟨⟨key, entry⟩ :: done, last, e, after, filesThen, rfl, hlast,
            ?_, hrefused, ?_⟩
          · rwa [placeholders_cons_of_pass hslot]
          · dsimp only
            rw [hleft, List.map_cons, created_eq_self hslot]
            rfl

theorem Decides.eq_of_nil (h : Decides c decision slots slots' (.ok [])) :
    slots' = slots := by
  generalize hresult : Except.ok [] = result at h
  induction h with
  | nil => rfl
  | pass _ _ ih => rw [ih hresult]
  | @replace _ _ _ _ _ result _ _ _ _ => cases result <;> cases hresult
  | stop => rfl

/-! ## The cache after a failure -/

theorem files_carryOut (c : Config) (decision : Decision) (r : Registry) :
    (carryOut c decision r).1.files =
      (decideSlots c decision r.files r.cache.slots).1 := by
  unfold carryOut
  generalize decideSlots c decision r.files r.cache.slots = outcome
  obtain ⟨files, slots, cause | (_ | ⟨d, ds⟩)⟩ := outcome <;> rfl

theorem carryOut_eq_error {r : Registry}
    (h : (carryOut c decision r).2 = .error cause) :
    (carryOut c decision r).1.cache = { r.cache with
      slots := (decideSlots c decision r.files r.cache.slots).2.1 } ∧
    ((decideSlots c decision r.files r.cache.slots).2.2 = .error cause ∨
      (decideSlots c decision r.files r.cache.slots).2.2 = .ok []) := by
  unfold carryOut at h ⊢
  generalize decideSlots c decision r.files r.cache.slots = outcome at h ⊢
  obtain ⟨files, slots, refusal | (_ | ⟨d, ds⟩)⟩ := outcome
  · exact ⟨rfl, .inl h⟩
  · exact ⟨rfl, .inr rfl⟩
  · cases h

/-- A decision that fails leaves the cache as it was, unless it is to create
placeholders.  Then the files refuse one of them, after those of the entries
before it were written there; just these entries have theirs.  The order of the
slots is any. -/
theorem failed_decision_leaves (c : Config) (decision : Decision) (r : Registry)
    (cause : ResolutionError) (h : (carryOut c decision r).2 = .error cause) :
    (carryOut c decision r).1.cache = r.cache ∨
      decision.action = .createPlaceholder ∧
        ∃ done key d rest files, r.cache.slots = done ++ ⟨key, some d⟩ :: rest ∧
          key.id = decision.dependencyId ∧
          r.files.putPlaceholders (placeholders c decision done) =
            (files, .ok ()) ∧
          files.putPlaceholder (locate c d) (placeholderOf d) =
            ((carryOut c decision r).1.files, .error cause) ∧
          (carryOut c decision r).1.cache = { r.cache with
            slots :=
              done.map (created decision) ++ ⟨key, some d⟩ :: rest } := by
  obtain ⟨hcache, herror | hnone⟩ := carryOut_eq_error h
  · by_cases haction : decision.action = .createPlaceholder
    · obtain ⟨done, key, d, rest, files, hslots, hid, hdone, hrefused, hleft⟩ :=
        decideSlots_split haction herror
      rw [← files_carryOut] at hrefused
      refine .inr ⟨haction, done, key, d, rest, files, hslots, hid, hdone,
        hrefused, ?_⟩
      rw [hcache, hleft]
    · refine .inl ?_
      rw [hcache, slots_decideSlots_of_error haction herror]
  · have hdecides := decides_decideSlots c decision r.files r.cache.slots
    rw [hnone] at hdecides
    refine .inl ?_
    rw [hcache, hdecides.eq_of_nil]

/-! ## A placeholder that cannot be written -/

def twoPaths : Session :=
  [(.empty, .inquire (.dependency .agent "h" (some "a.md"))),
    (.empty, .inquire (.dependency .agent "h" (some "b/h.md")))]

def blocked : Registry :=
  ⟨FileTree.empty.put ["work", "b"] (.newFile (.text "")),
    twoPaths.cache .standard⟩

def creation : Decision := ⟨"agent:h", .createPlaceholder, none, none⟩

theorem carryOut_blocked :
    (carryOut .standard creation blocked).2 = .error
      (.access "./b" .alreadyExists) ∧
      (carryOut .standard creation blocked).1.cache ≠ blocked.cache := by
  decide +kernel

theorem failed_decision_leaves_blocked :
    ∃ done key d rest files,
      blocked.cache.slots = done ++ ⟨key, some d⟩ :: rest ∧
      blocked.files.putPlaceholders (placeholders .standard creation done) =
        (files, .ok ()) ∧
      (files.putPlaceholder (locate .standard d) (placeholderOf d)).2 =
        .error (.access "./b" .alreadyExists) ∧
      (carryOut .standard creation blocked).1.cache = { blocked.cache with
        slots := done.map (created creation) ++ ⟨key, some d⟩ :: rest } ∧
      (carryOut .standard creation blocked).1.cache ≠ blocked.cache := by
  obtain ⟨hfails, hchanged⟩ := carryOut_blocked
  obtain hsame | ⟨-, done, key, d, rest, files, hslots,
      -, hdone, hrefused, hcache⟩ :=
    failed_decision_leaves .standard creation blocked _ hfails
  · exact absurd hsame hchanged
  · exact ⟨done, key, d, rest, files, hslots, hdone, congrArg Prod.snd hrefused,
      hcache, hchanged⟩

theorem failed_decision_not_atomic :
    ¬ ∀ c decision (r : Registry) cause, r.cache.Reached c →
      (carryOut c decision r).2 = .error cause →
        (carryOut c decision r).1.cache = r.cache := by
  intro h
  obtain ⟨hfails, hchanged⟩ := carryOut_blocked
  have hreached : blocked.cache.Reached .standard :=
    twoPaths.steps_cacheFrom .standard .empty
  exact hchanged (h .standard creation blocked _ hreached hfails)

end Resolution

end Workflows
