import Workflows.Proofs.Resolution.Creation
import Workflows.Proofs.Resolution.FailedRequest

/-!
# What a decision changes

A decision does not know an id just where no slot of it holds an entry.  Where
it succeeds, each entry of the id has been put back under its own key with what
was decided, so that later requests get it; nothing else in the cache is
touched.
-/

namespace Workflows

def Slot.held (id : String) (slots : List Slot) : List Slot :=
  slots.filter fun s => s.key.id == id && s.isFilled

theorem Slot.held_cons_of_entry {id : String} {slot : Slot}
    {d : ResolvedDependency} (hentry : slot.entry = some d)
    (hid : (slot.key.id == id) = true) (rest : List Slot) :
    held id (slot :: rest) = slot :: held id rest := by
  simp [held, isFilled, hentry, hid]

theorem Slot.held_cons_of_pass {id : String} {slot : Slot}
    (h : ∀ d, slot.entry = some d → (slot.key.id == id) = true → False)
    (rest : List Slot) :
    held id (slot :: rest) = held id rest := by
  refine List.filter_cons_of_neg fun hheld => ?_
  obtain ⟨hid, hfilled⟩ := Bool.and_eq_true_iff.mp hheld
  obtain ⟨d, hentry⟩ := Option.isSome_iff_exists.mp hfilled
  exact h d hentry hid

theorem Slot.filterMap_held (id : String) (slots : List Slot) :
    (held id slots).filterMap entry =
      (slots.filter fun s => s.key.id == id).filterMap entry := by
  rw [held, List.filterMap_filter, List.filterMap_filter]
  refine congrArg (List.filterMap · slots) (funext fun slot => ?_)
  cases hentry : slot.entry <;> simp [isFilled, hentry]

theorem Slot.held_eq_nil_iff {id : String} {slots : List Slot} :
    held id slots = [] ↔ ∀ slot ∈ slots, slot.key.id = id →
    slot.entry = none := by
  simp [held, isFilled, List.filter_eq_nil_iff]

/-! ## Refusals -/

namespace FileTree

variable {t t' : FileTree} {path : String} {cause : ResolutionError}

theorem code_of_access {α : Type} {result : Except AccessError α}
    (h : result.mapError (.access path) = .error cause) :
    cause.code = "R001" := by
  cases result with
  | error refusal =>
      cases h
      rfl
  | ok value => cases h

theorem code_of_makeParents (h : (t.makeParents path).2 = .error cause) :
    cause.code = "R001" := by
  unfold makeParents at h
  split at h
  · cases h
  · exact code_of_access h

theorem code_of_putPlaceholder {p : Placeholder}
    (h : t.putPlaceholder path p = (t', .error cause)) :
    cause.code = "R001" := by
  have h := congrArg Prod.snd h
  cases p with
  | directory => exact code_of_access h
  | document name kind =>
      unfold putPlaceholder at h
      dsimp only at h
      split at h
      · next left refusal hparents =>
          cases h
          exact code_of_makeParents (congrArg Prod.snd hparents)
      · exact code_of_access h

theorem code_of_inspect (h : t.inspect path = .error cause) :
    cause.code = "R001" := by
  unfold inspect at h
  split at h
  · split at h <;> cases h
  · cases h
  · cases h
  · cases h
    rfl

end FileTree

namespace Resolution

variable {c : Config} {decision : Decision} {files files' last : FileTree}
  {slots slots' : List Slot} {d d' : ResolvedDependency}
  {ds : List ResolvedDependency} {cause : ResolutionError}

/-! ## One entry -/

/-- What a decision makes of the files and of an entry that it is carried out
on. -/
inductive Update (c : Config) (decision : Decision) (files : FileTree)
    (d : ResolvedDependency) :
    FileTree → ResolvedDependency → Prop
  | keep (haction : decision.action = .useExisting) :
      Update c decision files d files d
  | create {files' : FileTree} (haction : decision.action = .createPlaceholder)
      (hput : files.putPlaceholder (locate c d) (placeholderOf d) =
        (files', .ok ())) :
      Update c decision files d files' (withPlaceholder d decision.newVersion)
  | skip (haction : decision.action = .skip) :
      Update c decision files d files (d.fail ResolvedDependency.skippedCode
        ("Dependency '" ++ d.id ++ "' was skipped"))
  | replace {path : String} {report : PathReport} (haction : decision.action =
      .replace)
      (hpath : decision.replacementPath = some path)
      (hreport : files.inspect (c.underBase path) = .ok report) :
      Update c decision files d files
        (withReplacement d path decision.newVersion report)

theorem Update.decideEntry_eq (h : Update c decision files d files' d') :
    decideEntry c decision files d = (files', .ok d') := by
  cases h with
  | keep haction => simp only [decideEntry, haction]
  | create haction hput =>
      rw [decideEntry_createPlaceholder haction, hput]
      rfl
  | skip haction => simp only [decideEntry, haction]
  | replace haction hpath hreport =>
      simp only [decideEntry, haction, hpath, hreport]
      rfl

theorem decideEntry_cases (c : Config) (decision : Decision) (files : FileTree)
    (d : ResolvedDependency) :
    (∃ files' d', decideEntry c decision files d = (files', .ok d') ∧
        Update c decision files d files' d') ∨
      ∃ files' cause, decideEntry c decision files d = (files', .error cause) ∧
        (cause.code = "R001" ∨ cause.code = "R003") := by
  cases haction : decision.action with
  | useExisting =>
      exact .inl ⟨_, _, (Update.keep haction).decideEntry_eq, .keep haction⟩
  | createPlaceholder =>
      rcases hput : files.putPlaceholder (locate c d) (placeholderOf d) with
          ⟨left, refusal | ⟨⟩⟩
      · refine .inr ⟨left, refusal, ?_,
          .inl (FileTree.code_of_putPlaceholder hput)⟩
        rw [decideEntry_createPlaceholder haction, hput]
        rfl
      · exact .inl ⟨_, _, (Update.create haction hput).decideEntry_eq,
          .create haction hput⟩
  | skip =>
      exact .inl ⟨_, _, (Update.skip haction).decideEntry_eq, .skip haction⟩
  | replace =>
      cases hpath : decision.replacementPath with
      | none =>
          refine .inr ⟨files, .missingReplacementPath decision.dependencyId, ?_,
            .inr rfl⟩
          simp only [decideEntry, haction, hpath]
      | some path =>
          cases hreport : files.inspect (c.underBase path) with
          | error refusal =>
              refine .inr ⟨files, refusal, ?_,
                .inl (FileTree.code_of_inspect hreport)⟩
              simp only [decideEntry, haction, hpath, hreport]
              rfl
          | ok report =>
              exact .inl ⟨_, _,
                (Update.replace haction hpath hreport).decideEntry_eq,
                .replace haction hpath hreport⟩

theorem code_of_decideEntry
    (h : (decideEntry c decision files d).2 = .error cause) :
    cause.code = "R001" ∨ cause.code = "R003" := by
  rcases decideEntry_cases c decision files d with
      ⟨_, _, heq, -⟩ | ⟨_, _, heq, hcode⟩
  · rw [heq] at h
    cases h
  · rw [heq] at h
    cases h
    exact hcode

structure Kept (action : DecisionKind) (d d' : ResolvedDependency) : Prop where
  id_eq : d'.id = d.id
  kind_eq : d'.kind = d.kind
  name_eq : d'.name = d.name
  logicalReference_eq : d'.logicalReference = d.logicalReference
  of_useExisting : action = .useExisting → d' = d
  of_skip : action = .skip → d'.withoutError = d.withoutError

theorem Update.kept (h : Update c decision files d files' d') :
    Kept decision.action d d' := by
  cases h with
  | keep haction => exact ⟨rfl, rfl, rfl, rfl, fun _ => rfl, fun _ => rfl⟩
  | create haction hput =>
      rw [haction]
      exact ⟨rfl, rfl, rfl, rfl, nofun, nofun⟩
  | skip haction =>
      rw [haction]
      exact ⟨rfl, rfl, rfl, rfl, nofun, fun _ => rfl⟩
  | replace haction hpath hreport =>
      rw [haction]
      cases FileTree.inspected_of_inspect hreport <;>
        exact ⟨rfl, rfl, rfl, rfl, nofun, nofun⟩

theorem Kept.identified {action : DecisionKind} (h : Kept action d d')
    {key : RequestKey} (hd : Identified key d) : Identified key d' where
  id_eq := h.id_eq.trans hd.id_eq
  logicalReference_eq := h.logicalReference_eq.trans hd.logicalReference_eq
  key_eq := by rw [h.kind_eq, h.name_eq, hd.key_eq]

/-! ## All entries of the id -/

theorem Decides.exists_of_error
    (h : Decides c decision slots slots' (.error cause)) :
    ∃ d files, (decideEntry c decision files d).2 = .error cause := by
  generalize hresult : Except.error cause = result at h
  induction h with
  | nil => cases hresult
  | pass _ _ ih => exact ih hresult
  | @replace _ _ _ _ _ result _ _ _ ih =>
      cases result with
      | ok ds => cases hresult
      | error refusal =>
          cases hresult
          exact ih rfl
  | @stop _ d _ files refusal _ hcause =>
      cases hresult
      exact ⟨d, files, hcause⟩

theorem Decides.others_eq
    {result : Except ResolutionError (List ResolvedDependency)}
    (h : Decides c decision slots slots' result) :
    (slots'.filter fun s => s.key.id != decision.dependencyId) =
      slots.filter fun s => s.key.id != decision.dependencyId := by
  induction h with
  | nil => rfl
  | pass _ _ ih => rw [List.filter_cons, List.filter_cons, ih]
  | replace hid _ _ ih => simpa [List.filter_cons, hid] using ih
  | stop => rfl

/-- The last files are those after an update, but for placeholders that were
written since. -/
structure Leaves (decision : Decision) (after last : FileTree) : Prop where
  grows : after.Grows last
  eq_of_ne : decision.action ≠ .createPlaceholder → last = after

/-- The entry of a slot was updated on the way to the last files, and put
back. -/
structure Updated (c : Config) (decision : Decision) (last : FileTree)
    (left : List Slot) (slot : Slot) (d' : ResolvedDependency) : Prop where
  stored : ⟨slot.key, some d'⟩ ∈ left
  update : ∃ d before after, slot.entry = some d ∧
    Update c decision before d after d' ∧
    Leaves decision after last

theorem Updated.cons {slot : Slot} {d' : ResolvedDependency}
    (h : Updated c decision last slots slot d') (first : Slot) :
    Updated c decision last (first :: slots) slot d' :=
  ⟨List.mem_cons_of_mem first h.stored, h.update⟩

theorem forall₂_updated
    (h : decideSlots c decision files slots = (last, slots', .ok ds)) :
    List.Forall₂ (Updated c decision last slots')
      (Slot.held decision.dependencyId slots) ds := by
  induction slots generalizing files slots' ds with
  | nil =>
      cases h
      exact .nil
  | cons slot rest ih =>
      rw [decideSlots] at h
      split at h
      · next d hentry hid =>
          rw [Slot.held_cons_of_entry hentry hid]
          rcases decideEntry_cases c decision files d with
            ⟨files', d', hfirst, hupdate⟩ | ⟨files', cause, hfirst, -⟩
          · simp only [hfirst] at h
            have hleaves :
                Leaves decision files' (decideSlots c decision files' rest).1 :=
              ⟨(adds_decideSlots c decision files' rest).toGrows,
                fun haction => files_decideSlots haction files' rest⟩
            rcases hrest : decideSlots c decision files' rest with
                ⟨_, rest', cause | others⟩
            · rw [hrest] at h
              cases h
            · rw [hrest] at h hleaves
              cases h
              exact .cons ⟨List.mem_cons_self, d, files, files', hentry,
                hupdate, hleaves⟩
                ((ih hrest).imp fun _ _ h => h.cons _)
          · simp only [hfirst] at h
            cases h
      · next hpass =>
          rw [Slot.held_cons_of_pass hpass]
          rcases hrest : decideSlots c decision files rest with ⟨_, rest', _⟩
          rw [hrest] at h
          cases h
          exact (ih hrest).imp fun _ _ h => h.cons _

theorem decideSlots_settled
    (h : ∀ slot ∈ slots, ∀ d, slot.key.id = decision.dependencyId →
      slot.entry = some d →
      Update c decision files d files d) :
    decideSlots c decision files slots =
      (files, slots,
        .ok ((Slot.held decision.dependencyId slots).filterMap
          Slot.entry)) := by
  induction slots with
  | nil => rfl
  | cons slot rest ih =>
      have hrest := ih fun other hother =>
        h other (List.mem_cons_of_mem _ hother)
      rw [decideSlots]
      split
      · next d hentry hid =>
          have hupdate :=
            h slot List.mem_cons_self d (by simpa using hid) hentry
          rw [hupdate.decideEntry_eq, Slot.held_cons_of_entry hentry hid,
            List.filterMap_cons_some hentry]
          dsimp only
          rw [hrest, ← hentry]
          rfl
      · next hpass =>
          rw [hrest, Slot.held_cons_of_pass hpass]

/-! ## The whole decision -/

theorem happens_decide_iff {r left : Registry}
    {answer : Except ResolutionError (List ResolvedDependency)} :
    (Operation.decide decision).Happens c r answer left ↔
      ∃ visited : List Slot, visited.Perm r.cache.slots ∧
        carryOut c decision ⟨r.files, { r.cache with slots := visited }⟩ =
          (left, answer) := by
  refine exists_congr fun visited => and_congr_right fun _ => ?_
  rw [Prod.ext_iff, Prod.ext_iff, and_comm]
  rfl

theorem happens_carryOut (c : Config) (decision : Decision) (r : Registry) :
    (Operation.decide decision).Happens c r (carryOut c decision r).2
      (carryOut c decision r).1 :=
  happens_decide_iff.mpr ⟨r.cache.slots, .refl _, rfl⟩

theorem carryOut_unknown_iff (c : Config) (decision : Decision) (r : Registry) :
    (∃ cause, (carryOut c decision r).2 = .error cause ∧ cause.code = "R002") ↔
      ∀ slot ∈ r.cache.slots, slot.key.id = decision.dependencyId →
      slot.entry = none := by
  constructor
  · rintro ⟨cause, hfails, hcode⟩
    rcases (carryOut_eq_error hfails).2 with hrefused | hnone
    · have hdecides := decides_decideSlots c decision r.files r.cache.slots
      rw [hrefused] at hdecides
      obtain ⟨d, files, hentry⟩ := hdecides.exists_of_error
      rcases code_of_decideEntry hentry with hother | hother <;>
        exact absurd (hcode.symm.trans hother) (by decide)
    · have hheld := forall₂_updated (Prod.ext rfl (Prod.ext rfl hnone))
      exact Slot.held_eq_nil_iff.mp (List.forall₂_nil_right_iff.mp hheld)
  · intro hempty
    have hnone : decideSlots c decision r.files r.cache.slots =
        (r.files, r.cache.slots, _) :=
      decideSlots_settled fun slot hslot d hid hentry =>
        absurd (hempty slot hslot hid) (by simp [hentry])
    rw [Slot.held_eq_nil_iff.mpr hempty] at hnone
    exact ⟨.unknownDependency decision.dependencyId,
      by rw [carryOut, hnone]; rfl, rfl⟩

theorem carryOut_eq_ok_iff {r left : Registry} :
    carryOut c decision r = (left, .ok ds) ↔
      decideSlots c decision r.files r.cache.slots =
        (left.files, left.cache.slots, .ok ds) ∧
        left.cache = { r.cache with slots := left.cache.slots } ∧ ds ≠ [] := by
  unfold carryOut
  generalize decideSlots c decision r.files r.cache.slots = outcome
  constructor
  · intro h
    obtain ⟨files, slots, cause | (_ | ⟨d, ds⟩)⟩ := outcome <;> cases h
    exact ⟨rfl, rfl, List.cons_ne_nil d ds⟩
  · rintro ⟨rfl, hcache, hne⟩
    obtain ⟨d, rest, rfl⟩ := List.exists_cons_of_ne_nil hne
    exact congrArg (fun cache => (Registry.mk left.files cache, _)) hcache.symm

/-- Two caches differ in the entries of one id at most; their slots are in any
order. -/
structure DiffersAt (id : String) (cache cache' : Cache) : Prop where
  keys : cache'.keys.Perm cache.keys
  others : (cache'.slots.filter fun s => s.key.id != id).Perm
    (cache.slots.filter fun s => s.key.id != id)
  hits : cache'.hits = cache.hits
  misses : cache'.misses = cache.misses

theorem differsAt_carryOut (c : Config) (decision : Decision) (r : Registry) :
    DiffersAt decision.dependencyId r.cache
      (carryOut c decision r).1.cache := by
  obtain ⟨result, hdecides, hhits, hmisses, -⟩ := carryOut_decides c decision r
  exact ⟨.of_eq hdecides.keys_eq, .of_eq hdecides.others_eq, hhits, hmisses⟩

/-- The entry of a slot has become another one, which later requests for the
slot's key get. -/
structure Renewed (c : Config) (action : DecisionKind) (left : Cache)
    (slot : Slot) (d' : ResolvedDependency) : Prop where
  kept : ∃ d, slot.entry = some d ∧ Kept action d d'
  identified : Identified slot.key d'
  reread :
    ∀ files, (resolve c files d'.kind d'.name slot.key.path).onCache left =
    (.ok d', { left with hits := left.hits + 1 })

theorem renewed_of_updated {left : Cache} {slot : Slot}
    {d' : ResolvedDependency} (h : Updated c decision last left.slots slot d')
    (hnodup : left.keys.Nodup)
    (hslot : ∀ d, slot.entry = some d → Identified slot.key d) :
    Renewed c decision.action left slot d' := by
  obtain ⟨hstored, d, before, after, hentry, hupdate, -⟩ := h
  have hidentified := hupdate.kept.identified (hslot d hentry)
  refine ⟨⟨d, hentry, hupdate.kept⟩, hidentified, fun files => ?_⟩
  have hkey : (⟨c, files, d'.kind, d'.name, slot.key.path⟩ : Request).key =
      slot.key := by
    rw [Request.key, ← hidentified.key_eq]
  rw [onCache_resolve, Request.answer, hkey]
  exact Cache.fetch_of_stored _ ((Cache.stored?_eq_some_iff hnodup).mpr hstored)

/-- In whatever order the slots are visited, a decision fails for an unknown id
just where nothing is stored under it, and touches no other id.  It answers with
the entries that are stored from then on, one for each that was stored
before. -/
theorem decision_authoritative (c : Config) (decision : Decision)
    {r left : Registry}
    {answer : Except ResolutionError (List ResolvedDependency)}
    (hreached : r.cache.Reached c)
    (hdecide : (Operation.decide decision).Happens c r answer left) :
    ((∃ cause, answer = .error cause ∧ cause.code = "R002") ↔
        ∀ slot ∈ r.cache.slots, slot.key.id = decision.dependencyId →
        slot.entry = none) ∧
      DiffersAt decision.dependencyId r.cache left.cache ∧
      ∀ ds, answer = .ok ds → ∃ held : List Slot,
        held.Perm (Slot.held decision.dependencyId r.cache.slots) ∧
          List.Forall₂ (Renewed c decision.action left.cache) held ds := by
  obtain ⟨visited, hvisited, hcarry⟩ := happens_decide_iff.mp hdecide
  have hdiffers :=
    differsAt_carryOut c decision ⟨r.files, { r.cache with slots := visited }⟩
  have hunknown :=
    carryOut_unknown_iff c decision ⟨r.files, { r.cache with slots := visited }⟩
  rw [hcarry] at hdiffers hunknown
  have hkeys : left.cache.keys.Perm r.cache.keys :=
    hdiffers.keys.trans (hvisited.map Slot.key)
  refine ⟨?_, ⟨hkeys, hdiffers.others.trans (hvisited.filter _), hdiffers.hits,
    hdiffers.misses⟩, fun ds hds => ?_⟩
  · simpa only [hvisited.mem_iff] using hunknown
  · subst hds
    refine ⟨_, hvisited.filter _, ?_⟩
    have hupdated := forall₂_updated (carryOut_eq_ok_iff.mp hcarry).1
    have hheld : ∀ slot ∈ Slot.held decision.dependencyId visited, ∀ d,
        slot.entry = some d →
        Identified slot.key d := fun slot hslot d hentry =>
      (hreached.allCoherent slot
        (hvisited.mem_iff.mp (List.mem_of_mem_filter hslot)) d
        hentry).toIdentified
    exact ((List.forall₂_and_left _ _).mpr ⟨hheld, hupdated⟩).imp
      fun slot d' ⟨hslot, h⟩ =>
      renewed_of_updated h (hkeys.nodup_iff.mpr hreached.nodup_keys) hslot

/-! ## Two paths of one agent -/

def omission : Decision := ⟨"agent:h", .skip, none, none⟩

def lastFirst : Registry :=
  ⟨.empty, { twoPaths.cache .standard with
    slots := (twoPaths.cache .standard).slots.reverse }⟩

def skipped (path : String) : ResolvedDependency where
  id := "agent:h"
  kind := .agent
  name := "h"
  logicalReference := "agent:h"
  physicalPath := path
  resolved := false
  error := some "Dependency 'agent:h' was skipped"
  errorCode := some ResolvedDependency.skippedCode
  presence := ⟨false, false, none⟩

theorem carryOut_lastFirst :
    (carryOut .standard omission lastFirst).2 = .ok
      [skipped "b/h.md", skipped "a.md"] := by
  decide +kernel

/-- The entries are changed and answered in the order of the visit. -/
theorem decision_authoritative_lastFirst :
    ∃ held : List Slot,
      held.Perm (Slot.held "agent:h" (twoPaths.cache .standard).slots) ∧
        List.Forall₂
          (Renewed .standard .skip (carryOut .standard omission
            lastFirst).1.cache) held [skipped "b/h.md", skipped "a.md"] := by
  have hreached : (twoPaths.cache .standard).Reached .standard :=
    twoPaths.steps_cacheFrom .standard .empty
  have hall :=
    decision_authoritative .standard omission
    (r := ⟨.empty, twoPaths.cache .standard⟩) hreached ⟨lastFirst.cache.slots,
      List.reverse_perm _, rfl⟩
  exact hall.2.2 _ carryOut_lastFirst

end Resolution

end Workflows
