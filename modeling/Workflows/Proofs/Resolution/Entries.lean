import Mathlib.Logic.Relation
import Workflows.Proofs.Resolution.Cache
import Workflows.Proofs.Resolution.Decision
import Workflows.Proofs.Resolution.Session

/-!
# Entries that agree with themselves

An entry says in several of its fields how a dependency was found.  Each look-up
and each decision writes some of them, and what it leaves agrees again, whatever
the files are at that time and in whatever order the slots are visited.
-/

namespace Workflows

open Resolution

/-- An entry is of the dependency that its key asks for. -/
structure Identified (key : RequestKey) (d : ResolvedDependency) : Prop where
  id_eq : d.id = key.id
  logicalReference_eq : d.logicalReference = key.id
  key_eq : key.id = Reference.key d.kind d.name

/-- The fields of an entry stored under a key agree. -/
structure Coherent (key : RequestKey) (d : ResolvedDependency) : Prop
    extends Identified key d where
  resolved_eq : d.resolved = (d.presence.exist && d.presence.accessible)
  exist_of_accessible : d.presence.accessible = true → d.presence.exist = true
  isSome_error_eq : d.error.isSome = d.errorCode.isSome
  errorCode_of_unresolved : d.resolved = false → d.errorCode.isSome = true
  of_notFound : d.errorCode = some ResolvedDependency.notFoundCode →
    d.presence.exist = false
  of_notAccessible : d.errorCode = some ResolvedDependency.notAccessibleCode →
    d.presence.exist = true ∧ d.presence.accessible = false
  skipped_of_resolved : d.resolved = true → d.error.isSome = true →
    d.errorCode = some ResolvedDependency.skippedCode

namespace Identified

variable {key : RequestKey} {d : ResolvedDependency}

theorem of_usable (h : Identified key d) (hresolved : d.resolved = true)
    (hexist : d.presence.exist = true)
    (haccessible : d.presence.accessible = true) (herror : d.error = none)
    (hcode : d.errorCode = none) : Coherent key d where
  toIdentified := h
  resolved_eq := by rw [hresolved, hexist, haccessible, Bool.true_and]
  exist_of_accessible := fun _ => hexist
  isSome_error_eq := by rw [herror, hcode]
  errorCode_of_unresolved := fun hnot => by rw [hresolved] at hnot; cases hnot
  of_notFound := fun hcode' => by rw [hcode] at hcode'; cases hcode'
  of_notAccessible := fun hcode' => by rw [hcode] at hcode'; cases hcode'
  skipped_of_resolved := fun _ hsome => by rw [herror] at hsome; cases hsome

theorem of_missing (h : Identified key d) (hresolved : d.resolved = false)
    (hexist : d.presence.exist = false)
    (haccessible : d.presence.accessible = false)
    (herror : d.error.isSome = true)
    (hcode : d.errorCode = some ResolvedDependency.notFoundCode) :
    Coherent key d where
  toIdentified := h
  resolved_eq := by rw [hresolved, hexist, Bool.false_and]
  exist_of_accessible := fun hyes => by rw [haccessible] at hyes; cases hyes
  isSome_error_eq := by rw [herror, hcode]; rfl
  errorCode_of_unresolved := fun _ => by rw [hcode]; rfl
  of_notFound := fun _ => hexist
  of_notAccessible := fun hcode' => absurd (hcode.symm.trans hcode') (by decide)
  skipped_of_resolved := fun hyes => by rw [hresolved] at hyes; cases hyes

theorem of_denied (h : Identified key d) (hresolved : d.resolved = false)
    (hexist : d.presence.exist = true)
    (haccessible : d.presence.accessible = false)
    (herror : d.error.isSome = true)
    (hcode : d.errorCode = some ResolvedDependency.notAccessibleCode) :
    Coherent key d where
  toIdentified := h
  resolved_eq := by rw [hresolved, hexist, haccessible, Bool.true_and]
  exist_of_accessible := fun hyes => by rw [haccessible] at hyes; cases hyes
  isSome_error_eq := by rw [herror, hcode]; rfl
  errorCode_of_unresolved := fun _ => by rw [hcode]; rfl
  of_notFound := fun hcode' => absurd (hcode.symm.trans hcode') (by decide)
  of_notAccessible := fun _ => ⟨hexist, haccessible⟩
  skipped_of_resolved := fun hyes => by rw [hresolved] at hyes; cases hyes

end Identified

/-! ## Reports on paths -/

inductive PathReport.Inspected : PathReport → Prop
  | missing (path : String) : Inspected (.missing path)
  | denied (path : String) (kind : PathKind) : Inspected (.denied path kind)
  | opened (path : String) (kind : PathKind) (mode : Nat) :
      Inspected (.opened path kind mode)

theorem FileTree.inspected_of_inspect {files : FileTree} {path : String}
    {report : PathReport} (h : files.inspect path = .ok report) :
    report.Inspected := by
  unfold inspect at h
  split at h
  · split at h <;> cases h
    · exact .opened _ _ _
    · exact .denied _ _
  · cases h
    exact .missing _
  · cases h
    exact .denied _ _
  · cases h

namespace Resolution

/-! ## What is written -/

theorem coherent_entryOf (files : FileTree) (kind : DependencyKind)
    (name physicalPath : String) (path : Option String) {report : PathReport}
    (h : report.Inspected) :
    Coherent ⟨Reference.key kind name, path⟩
      (entryOf files kind name physicalPath report) := by
  cases h with
  | missing location =>
      exact Identified.of_missing ⟨rfl, rfl, rfl⟩ rfl rfl rfl rfl rfl
  | denied location pathKind =>
      exact Identified.of_denied ⟨rfl, rfl, rfl⟩ rfl rfl rfl rfl rfl
  | opened location pathKind mode =>
      exact Identified.of_usable ⟨rfl, rfl, rfl⟩ rfl rfl rfl rfl rfl

theorem coherent_lookUp {request : Request} {d : ResolvedDependency}
    (h : request.lookUp = .ok d) : Coherent request.key d := by
  rw [Request.lookUp, lookUp] at h
  generalize placesOf request.config request.kind request.name request.path =
    places at h
  obtain ⟨physicalPath, location⟩ := places
  dsimp only at h
  cases hreport : request.files.inspect location with
  | error cause =>
      rw [hreport] at h
      cases h
  | ok report =>
      rw [hreport] at h
      cases h
      exact coherent_entryOf _ _ _ _ _ (FileTree.inspected_of_inspect hreport)

section Decisions

variable {key : RequestKey} {d : ResolvedDependency}

theorem coherent_withPlaceholder (h : Coherent key d)
    (newVersion : Option String) :
    Coherent key (withPlaceholder d newVersion) :=
  Identified.of_usable ⟨h.id_eq, h.logicalReference_eq, h.key_eq⟩
    rfl rfl rfl rfl rfl

theorem coherent_withReplacement (h : Coherent key d) (path : String)
    (newVersion : Option String) {report : PathReport}
    (hreport : report.Inspected) :
    Coherent key (withReplacement d path newVersion report) := by
  cases hreport with
  | missing location =>
      exact Identified.of_missing ⟨h.id_eq, h.logicalReference_eq, h.key_eq⟩
        rfl rfl rfl
        rfl rfl
  | denied location pathKind =>
      exact Identified.of_denied ⟨h.id_eq, h.logicalReference_eq, h.key_eq⟩
        rfl rfl rfl
        rfl rfl
  | opened location pathKind mode =>
      exact Identified.of_usable ⟨h.id_eq, h.logicalReference_eq, h.key_eq⟩
        rfl rfl rfl
        rfl rfl

theorem coherent_skip (h : Coherent key d) (message : String) :
    Coherent key (d.fail ResolvedDependency.skippedCode message) where
  id_eq := h.id_eq
  logicalReference_eq := h.logicalReference_eq
  key_eq := h.key_eq
  resolved_eq := h.resolved_eq
  exist_of_accessible := h.exist_of_accessible
  isSome_error_eq := rfl
  errorCode_of_unresolved := fun _ => rfl
  of_notFound := fun hcode => absurd (Option.some.inj hcode) (by decide)
  of_notAccessible := fun hcode => absurd (Option.some.inj hcode) (by decide)
  skipped_of_resolved := fun _ _ => rfl

theorem Decided.coherent {c : Config} {decision : Decision}
    {d' : ResolvedDependency} (hdecided : Decided c decision d d')
    (h : Coherent key d) : Coherent key d' := by
  obtain ⟨files, hentry⟩ := hdecided
  rw [decideEntry] at hentry
  -- the result of each action is a function of an entry that was coherent
  -- before
  cases haction : decision.action with
  | useExisting =>
      rw [haction] at hentry
      cases hentry
      exact h
  | createPlaceholder =>
      simp only [haction] at hentry
      cases hput : (files.putPlaceholder (locate c d) (placeholderOf d)).2 with
      | error cause =>
          rw [hput] at hentry
          cases hentry
      | ok written =>
          rw [hput] at hentry
          cases hentry
          exact coherent_withPlaceholder h decision.newVersion
  | skip =>
      rw [haction] at hentry
      cases hentry
      exact coherent_skip h _
  | replace =>
      simp only [haction] at hentry
      cases hpath : decision.replacementPath with
      | none =>
          rw [hpath] at hentry
          cases hentry
      | some path =>
          simp only [hpath] at hentry
          cases hreport : files.inspect (c.underBase path) with
          | error cause =>
              rw [hreport] at hentry
              cases hentry
          | ok report =>
              rw [hreport] at hentry
              cases hentry
              exact coherent_withReplacement h path decision.newVersion
                (FileTree.inspected_of_inspect hreport)

end Decisions

end Resolution

/-! ## Steps of a cache -/

/-- What changes a cache: a request, a decision on one of the slots, or that all
is forgotten.  A decision about several slots is as many steps; the slots are in
no certain order. -/
inductive Cache.Step (c : Config) : Cache → Cache → Prop
  | ask (cache : Cache) (request : Request) :
      Step c cache (request.answer cache).2
  | decide (before after : List Slot) (hits misses : Nat) {key : RequestKey}
      {d d' : ResolvedDependency} {decision : Decision}
      (hid : key.id = decision.dependencyId)
      (hdecided : Decided c decision d d') :
      Step c ⟨before ++ ⟨key, some d⟩ :: after, hits, misses⟩
        ⟨before ++ ⟨key, some d'⟩ :: after, hits, misses⟩
  | clear (cache : Cache) : Step c cache cache.clear
  | reorder (cache : Cache) {slots : List Slot}
      (hslots : slots.Perm cache.slots) :
      Step c cache { cache with slots := slots }

def Cache.Reached (c : Config) : Cache → Prop :=
  Relation.ReflTransGen (Step c) .empty

def Cache.AllCoherent (cache : Cache) : Prop :=
  ∀ slot ∈ cache.slots, ∀ d, slot.entry = some d → Coherent slot.key d

namespace Cache

theorem AllCoherent.of_slots_eq_nil {cache : Cache} (h : cache.slots = []) :
    cache.AllCoherent := by
  intro slot hslot
  rw [h] at hslot
  cases hslot

theorem AllCoherent.store {cache : Cache} (h : cache.AllCoherent)
    {key : RequestKey} {d : ResolvedDependency} (hd : Coherent key d) :
    (cache.store key d).AllCoherent := by
  intro slot hslot e he
  obtain ⟨old, hold, rfl⟩ := List.mem_map.mp hslot
  split at he
  · next heq =>
      cases he
      rw [if_pos heq]
      exact hd
  · next hne =>
      rw [if_neg hne]
      exact h old hold e he

theorem AllCoherent.reserve {cache : Cache} (h : cache.AllCoherent)
    (key : RequestKey) :
    (cache.reserve key).AllCoherent := by
  intro slot hslot d hd
  rw [Cache.reserve] at hslot
  split at hslot
  · exact h slot hslot d hd
  · rcases List.mem_append.mp hslot with hold | hnew
    · exact h slot hold d hd
    · obtain rfl := List.mem_singleton.mp hnew
      cases hd

theorem Step.allCoherent {c : Config} {cache cache' : Cache}
    (hstep : Step c cache cache') (h : cache.AllCoherent) :
    cache'.AllCoherent := by
  cases hstep with
  | ask _ request =>
      rw [Request.answer, fetch]
      split
      · exact h
      · have hreserved := h.reserve request.key
        cases hlookUp : request.lookUp with
        | error cause => exact hreserved
        | ok d => exact hreserved.store (coherent_lookUp hlookUp)
  | decide before after hits misses hid hdecided =>
      intro slot hslot e he
      rcases List.mem_append.mp hslot with hbefore | hslot
      · exact h slot (List.mem_append_left _ hbefore) e he
      · rcases List.mem_cons.mp hslot with rfl | hafter
        · cases he
          exact hdecided.coherent
            (h _ (List.mem_append_right _ List.mem_cons_self) _ rfl)
        · exact h slot
            (List.mem_append_right _ (List.mem_cons_of_mem _ hafter)) e he
  | clear => exact .of_slots_eq_nil rfl
  | reorder _ hslots => exact fun slot hslot => h slot (hslots.mem_iff.mp hslot)

theorem Step.nodup_keys {c : Config} {cache cache' : Cache}
    (hstep : Step c cache cache') (h : cache.keys.Nodup) :
    cache'.keys.Nodup := by
  cases hstep with
  | ask _ request => exact nodup_keys_fetch _ h _
  | decide before after hits misses hid hdecided => simpa [keys] using h
  | clear => exact List.nodup_nil
  | reorder _ hslots => exact (hslots.map Slot.key).nodup_iff.mpr h

theorem Reached.nodup_keys {c : Config} {cache : Cache} (h : Reached c cache) :
    cache.keys.Nodup := by
  induction h with
  | refl => exact List.nodup_nil
  | tail _ hstep ih => exact hstep.nodup_keys ih

theorem Reached.allCoherent {c : Config} {cache : Cache} (h : Reached c cache) :
    cache.AllCoherent := by
  induction h with
  | refl => exact .of_slots_eq_nil rfl
  | tail _ hstep ih => exact hstep.allCoherent ih

end Cache

/-! ## Sessions take steps -/

open Relation

namespace Resolution

theorem Decides.steps {c : Config} {decision : Decision}
    {slots slots' : List Slot}
    {result : Except ResolutionError (List ResolvedDependency)}
    (h : Decides c decision slots slots' result) (before : List Slot)
    (hits misses : Nat) :
    ReflTransGen (Cache.Step c) ⟨before ++ slots, hits, misses⟩
      ⟨before ++ slots', hits, misses⟩ := by
  induction h generalizing before with
  | nil => exact .refl
  | @pass slot _ _ _ _ _ ih =>
      have hrest := ih (before ++ [slot])
      rwa [← List.append_cons, ← List.append_cons] at hrest
  | @replace key d d' rest rest' _ hid hdecided _ ih =>
      -- the slots before grow by the one that was changed just now
      have hrest := ih (before ++ [⟨key, some d'⟩])
      rw [← List.append_cons, ← List.append_cons] at hrest
      exact .head (.decide before rest hits misses hid hdecided) hrest
  | stop => exact .refl

end Resolution

theorem Resolving.steps_onCache (c : Config) {α : Type} (work : Resolving α)
    (cache : Cache) :
    ReflTransGen (Cache.Step c) cache (work.onCache cache).2 := by
  induction work generalizing cache with
  | done result => exact .refl
  | ask request onward ih =>
      have hstep := Cache.Step.ask (c := c) cache request
      rw [onCache]
      generalize request.answer cache = outcome at hstep ⊢
      obtain ⟨cause | d, cache'⟩ := outcome
      · exact .single hstep
      · exact .head hstep (ih d cache')

namespace Resolution

theorem Call.steps_after (c : Config) (files : FileTree)
    (cache : Cache) (call : Call) :
    ReflTransGen (Cache.Step c) cache (call.after c files cache) := by
  cases call with
  | inquire inquiry => exact (inquiry.work c files).steps_onCache c cache
  | decide decision order =>
      obtain ⟨result, hdecides, hhits, hmisses, -⟩ :=
        carryOut_decides c decision ⟨files, order.arranged cache⟩
      have hsteps := hdecides.steps [] cache.hits cache.misses
      rw [Call.after]
      generalize (carryOut c decision ⟨files, order.arranged cache⟩).1.cache =
        cache' at hhits hmisses hsteps ⊢
      obtain ⟨slots, hits, misses⟩ := cache'
      cases hhits
      cases hmisses
      exact .head (.reorder cache (order.perm cache.slots)) hsteps
  | clear => exact .single (.clear cache)

theorem Session.steps_cacheFrom (c : Config) (s : Session) (cache : Cache) :
    ReflTransGen (Cache.Step c) cache (s.cacheFrom c cache) := by
  induction s generalizing cache with
  | nil => exact .refl
  | cons first rest ih =>
      obtain ⟨files, call⟩ := first
      exact (call.steps_after c files cache).trans (ih _)

/-- Whatever is stored agrees with itself, after every session and after every
row of single requests and decisions. -/
theorem entries_coherent (c : Config) :
    (∀ s : Session, (s.cache c).Reached c) ∧
    ∀ cache : Cache, cache.Reached c → ∀ slot ∈ cache.slots, ∀ d,
      slot.entry = some d →
        Coherent slot.key d :=
  ⟨fun s => s.steps_cacheFrom c .empty, fun _ h => h.allCoherent⟩

end Resolution

end Workflows
