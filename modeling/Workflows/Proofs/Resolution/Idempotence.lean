import Workflows.Proofs.Resolution.Authority

/-!
# A decision that is carried out again

What a decision leaves is settled: carried out once more, it finds nothing to
do.  A placeholder that was written leads to something from then on, whatever
others are written after it, and the entry is still located there; the other
actions do not touch the files.
-/

namespace Workflows.Resolution

variable {c : Config} {decision : Decision} {files files' last : FileTree}
  {d d' : ResolvedDependency} {ds : List ResolvedDependency}

/-! ## Entries that are settled -/

theorem withPlaceholder_again (d : ResolvedDependency)
    (newVersion : Option String) :
    withPlaceholder (withPlaceholder d newVersion) newVersion =
      withPlaceholder d newVersion := by
  cases newVersion <;> rfl

theorem withReplacement_again (d : ResolvedDependency) (path : String)
    (newVersion : Option String) {report : PathReport} (h : report.Inspected) :
    withReplacement (withReplacement d path newVersion report)
      path newVersion report = withReplacement d path newVersion report := by
  cases h <;> cases newVersion <;> rfl

theorem Update.again (h : Update c decision files d files' d')
    (hleaves : Leaves decision files' last) :
    Update c decision last d' last d' := by
  cases h with
  | keep haction => exact .keep haction
  | create haction hput =>
      have hagain :
          last.putPlaceholder (locate c (withPlaceholder d decision.newVersion))
          (placeholderOf (withPlaceholder d decision.newVersion)) =
          (last, .ok ()) :=
        FileTree.putPlaceholder_again hput hleaves.grows
      have hupdate := Update.create haction hagain
      rwa [withPlaceholder_again] at hupdate
  | skip haction => exact .skip haction
  | @replace path report haction hpath hreport =>
      obtain rfl := hleaves.eq_of_ne (by simp [haction])
      have hupdate :
          Update c decision last (withReplacement d path decision.newVersion
            report) last _ := .replace haction hpath hreport
      rwa [withReplacement_again d path _
        (FileTree.inspected_of_inspect hreport)] at hupdate

theorem settled_of_updated {held left : List Slot}
    (h : List.Forall₂ (Updated c decision last left) held ds) :
    ∀ d' ∈ ds, Update c decision last d' last d' := by
  induction h with
  | nil => exact fun _ h => nomatch h
  | cons hfirst _ ih =>
      obtain ⟨d, before, after, -, hupdate, hleaves⟩ := hfirst.update
      exact List.forall_mem_cons.mpr ⟨hupdate.again hleaves, ih⟩

/-! ## The whole decision -/

theorem carryOut_settled {r : Registry}
    (hknown : r.cache.entriesOf decision.dependencyId ≠ [])
    (h : ∀ d ∈ r.cache.entriesOf decision.dependencyId,
      Update c decision r.files d r.files d) :
    carryOut c decision r =
      (r, .ok (r.cache.entriesOf decision.dependencyId)) := by
  refine carryOut_eq_ok_iff.mpr ⟨?_, rfl, hknown⟩
  rw [Cache.entriesOf, ← Slot.filterMap_held]
  refine decideSlots_settled fun slot hslot d hid hentry => h d ?_
  exact List.mem_filterMap.mpr ⟨slot,
    List.mem_filter.mpr ⟨hslot, by simpa using hid⟩, hentry⟩

/-- A decision that has succeeded succeeds again with the same entries, and
leaves the files and the cache as they are; if the slots are visited in another
order, so are the entries. -/
theorem decision_idempotent (c : Config) (decision : Decision)
    {r left : Registry}
    (h : (Operation.decide decision).Happens c r (.ok ds) left) :
    carryOut c decision left = (left, .ok ds) ∧
      ∀ (answer : Except ResolutionError (List ResolvedDependency))
        (again : Registry),
        (Operation.decide decision).Happens c left answer again →
          (∃ ds', answer = .ok ds' ∧ ds'.Perm ds) ∧ again.files = left.files ∧
            again.cache.slots.Perm left.cache.slots ∧
              again.cache.hits = left.cache.hits ∧ again.cache.misses =
                left.cache.misses := by
  obtain ⟨visited, -, hcarry⟩ := happens_decide_iff.mp h
  obtain ⟨hslots, -, hknown⟩ := carryOut_eq_ok_iff.mp hcarry
  have hdecides := decides_decideSlots c decision r.files visited
  rw [hslots] at hdecides
  have hsettled := settled_of_updated (forall₂_updated hslots)
  obtain rfl : ds = left.cache.entriesOf decision.dependencyId :=
    hdecides.eq_of_ok
  refine ⟨carryOut_settled hknown hsettled, fun answer again hagain => ?_⟩
  obtain ⟨visited', hvisited, hcarry'⟩ := happens_decide_iff.mp hagain
  have hentries : (Cache.entriesOf { left.cache with slots := visited' }
      decision.dependencyId).Perm
      (left.cache.entriesOf decision.dependencyId) :=
    (hvisited.filter _).filterMap _
  have hsame :=
    carryOut_settled (r := ⟨left.files, { left.cache with slots := visited' }⟩)
    (fun hnone => hknown (List.nil_perm.mp (hnone ▸ hentries)))
    fun d hd => hsettled d (hentries.mem_iff.mp hd)
  rw [hcarry'] at hsame
  cases hsame
  exact ⟨⟨_, rfl, hentries⟩, rfl, hvisited, rfl, rfl⟩

/-! ## A path below the directory of another -/

def nestedPaths : Registry :=
  let session : Session :=
    [(.empty, .inquire (.dependency .agent "h" (some "b/h.md"))),
      (.empty, .inquire (.dependency .agent "h" (some "b/c/h.md")))]
  ⟨.empty, session.cache .standard⟩

theorem carryOut_nestedPaths :
    (carryOut .standard creation nestedPaths).2 =
      .ok [markedUsable .agent "h" "b/h.md",
        markedUsable .agent "h" "b/c/h.md"] := by
  decide +kernel

theorem decision_idempotent_nestedPaths :
    let left := (carryOut .standard creation nestedPaths).1
    carryOut .standard creation left =
      (left, .ok [markedUsable .agent "h" "b/h.md",
        markedUsable .agent "h" "b/c/h.md"]) := by
  intro left
  have hfirst := happens_carryOut .standard creation nestedPaths
  rw [carryOut_nestedPaths] at hfirst
  exact (decision_idempotent .standard creation hfirst).1

end Workflows.Resolution
