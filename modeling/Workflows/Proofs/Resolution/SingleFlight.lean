import Mathlib.Data.List.Perm.Basic
import Workflows.Proofs.Graph.Successors
import Workflows.Proofs.Resolution.Accounts
import Workflows.Proofs.Resolution.Flight

/-!
# One look-up for each key

Requests that are under way together come to their ends whatever the order of
their steps, all with the answers that they get one after another.  Of those for
one key a single one looks the dependency up, and the others find what it
stored.
-/

namespace Workflows

open Resolution

variable {value : RequestKey → ResolvedDependency}

/-! ## Steps of the traffic -/

namespace Orderly

variable {s s' : SharedCache} {before after : List Flight} {r : Request}
  {a b : Stage}

theorem move (h : Orderly value s (before ++ ⟨r, a⟩ :: after))
    (hmove : r.Move s a s' b) (hvalue : r.lookUp = .ok (value r.key)) :
    Orderly value s' (before ++ ⟨r, b⟩ :: after) where
  locks key := (h.locks_move hmove key).1
  exclusive key := (h.locks_move hmove key).2
  slots := h.slots_move hmove
  reserved := h.reserved_move hmove
  fits f hf := by
    rcases List.mem_append.mp hf with hbefore | hrest
    · exact h.fits_others hmove (List.mem_append_left _ hbefore)
    · rcases List.mem_cons.mp hrest with rfl | hafter
      · exact h.fits_mover hmove hvalue
      · exact h.fits_others hmove (List.mem_append_right _ hafter)
  stored := h.stored_move hmove
  lookUps := h.lookUps_move hmove hvalue
  misses := (h.counts_move hmove).1
  counted := (h.counts_move hmove).2

end Orderly

namespace Traffic

variable {t t' : Traffic} {requests : List Request}

def stepsLeft (t : Traffic) : Nat :=
  (t.flights.map fun f => f.stage.stepsLeft).sum

theorem exists_move {i : Nat} (h : t.advance? i = some t') :
    ∃ before r a after shared b, t = ⟨t.shared, before ++ ⟨r, a⟩ :: after⟩ ∧
      r.Move t.shared a shared b ∧
      t' = ⟨shared, before ++ ⟨r, b⟩ :: after⟩ := by
  obtain ⟨⟨r, a⟩, hflight, h⟩ := Option.bind_eq_some_iff.mp h
  obtain ⟨⟨shared, b⟩, hadvance, h⟩ := Option.bind_eq_some_iff.mp h
  obtain ⟨hi, hget⟩ := List.getElem?_eq_some_iff.mp hflight
  have hsplit : t.flights = t.flights.take i ++ ⟨r,
      a⟩ :: t.flights.drop (i + 1) := by
    rw [← hget, List.getElem_cons_drop, List.take_append_drop]
  refine ⟨t.flights.take i, r, a, t.flights.drop (i + 1), shared, b, ?_,
    Flight.move_of_advance? hadvance, ?_⟩
  · rw [← hsplit]
  · rw [← Option.some.inj h, List.set_eq_take_append_cons_drop, if_pos hi]

theorem advance?_eq_none_iff :
    (∀ i, t.advance? i = none) ↔ ∀ f ∈ t.flights,
      f.advance? t.shared = none := by
  constructor
  · intro h f hf
    obtain ⟨i, hi⟩ := List.mem_iff_getElem?.mp hf
    have hnone := h i
    rw [advance?, hi] at hnone
    cases hadvance : f.advance? t.shared with
    | none => rfl
    | some next =>
        rw [Option.bind_eq_bind, Option.bind_some, hadvance] at hnone
        cases hnone
  · intro h i
    unfold advance?
    cases hi : t.flights[i]? with
    | none => rfl
    | some f =>
        rw [Option.bind_eq_bind, Option.bind_some,
          h f (List.mem_of_getElem? hi)]
        rfl

structure Sound (value : RequestKey → ResolvedDependency)
    (requests : List Request) (t : Traffic) : Prop where
  requests : t.flights.map Flight.request = requests
  orderly : Orderly value t.shared t.flights

theorem Sound.advance (h : t.Sound value requests)
    (hvalue : ∀ r ∈ requests, r.lookUp = .ok (value r.key)) {i : Nat}
    (hadvance : t.advance? i = some t') :
    t'.Sound value requests ∧ t'.stepsLeft < t.stepsLeft := by
  obtain ⟨before, r, a, after, shared, b, ht, hmove, rfl⟩ :=
    exists_move hadvance
  obtain ⟨hrequests, horderly⟩ := h
  rw [ht] at hrequests horderly ⊢
  have hr : r ∈ requests := by
    rw [← hrequests]
    simp
  refine ⟨⟨?_, horderly.move hmove (hvalue r hr)⟩, ?_⟩
  · simpa using hrequests
  · have hless := hmove.stepsLeft_lt
    simp only [stepsLeft, List.map_append, List.map_cons, List.sum_append,
      List.sum_cons]
    omega

theorem Sound.run (hvalue : ∀ r ∈ requests, r.lookUp = .ok (value r.key))
    {order : List Nat} (h : t.Sound value requests)
    (hrun : t.run? order = some t') :
    t'.Sound value requests ∧ order.length + t'.stepsLeft ≤ t.stepsLeft := by
  induction order generalizing t with
  | nil =>
      cases hrun
      exact ⟨h, by simp⟩
  | cons i rest ih =>
      obtain ⟨middle, hadvance, hrest⟩ := Option.bind_eq_some_iff.mp hrun
      obtain ⟨hmiddle, hless⟩ := h.advance hvalue hadvance
      obtain ⟨hsound, hsteps⟩ := ih hmiddle hrest
      refine ⟨hsound, ?_⟩
      rw [List.length_cons]
      omega

theorem sound_start (value : RequestKey → ResolvedDependency)
    (requests : List Request) :
    (start requests).Sound value requests where
  requests := by simp [start, Function.comp_def]
  orderly := {
    locks :=
      fun key => by simp [start, numberAt, Stage.holdsLock, Function.comp_def]
    exclusive := fun key => by simp [start]
    slots := by simp [start, Cache.keys, Cache.empty]
    reserved :=
      fun key => by simp [start, Cache.keys, Cache.empty, Stage.isAsked]
    fits := fun f hf => by
      obtain ⟨r, -, rfl⟩ := List.mem_map.mp hf
      exact trivial
    stored := fun key d hd => by cases hd
    lookUps := fun key => by
      simp [start, numberAt, Stage.isFound, Function.comp_def]
    misses := by simp [start, Cache.empty, Stage.isMissed, Function.comp_def]
    counted := by
      simp [start, Cache.empty, Stage.isCounted, Function.comp_def] }

theorem stepsLeft_start (requests : List Request) :
    (start requests).stepsLeft = 6 * requests.length := by
  simp [start, stepsLeft, Stage.stepsLeft, Function.comp_def, Nat.mul_comm]

/-! ## Ends -/

/-- All requests have their answers, one look-up was made for each key, and the
others are counted as hits. -/
structure Settled (value : RequestKey → ResolvedDependency) (t : Traffic) :
    Prop where
  answered : ∀ f ∈ t.flights, f.stage = .answered (.ok (value f.key))
  stored : ∀ f ∈ t.flights, t.shared.cache.stored? f.key = some (value f.key)
  misses : t.shared.cache.misses = t.shared.cache.slots.length
  entries :
    t.shared.cache.slots.length = (distinct (t.flights.map Flight.key)).length
  hits : t.shared.cache.hits + t.shared.cache.slots.length = t.flights.length

end Traffic

theorem Flight.isSome_advance? {f : Flight} (s : SharedCache)
    (h : f.stage.holdsLock = true) : (f.advance? s).isSome = true := by
  obtain ⟨r, stage⟩ := f
  cases stage with
  | holding | missed =>
      simp only [advance?, key]
      split <;> rfl
  | found | served => rfl
  | _ => cases h

theorem Orderly.exists_answered {s : SharedCache} {flights : List Flight}
    (h : Orderly value s flights) (hstuck : ∀ f ∈ flights, f.advance? s = none)
    {f : Flight} (hf : f ∈ flights) : ∃ result, f.stage = .answered result := by
  have hfree : ∀ f ∈ flights, f.stage.holdsLock = false := by
    intro f hf
    by_contra hlock
    have hstep := f.isSome_advance? s (by simpa using hlock)
    rw [hstuck f hf] at hstep
    cases hstep
  have hnone := hstuck f hf
  obtain ⟨r, stage⟩ := f
  cases stage with
  | asked => cases hnone
  | queued =>
      have hlocked : r.key ∈ s.locked := by
        by_contra hunlocked
        simp [Flight.advance?, Flight.key, hunlocked] at hnone
      have hcount := List.count_pos_iff.mpr hlocked
      rw [h.locks, numberAt, List.countP_pos_iff] at hcount
      obtain ⟨holder, hholder, hkey⟩ := hcount
      simp [hfree holder hholder] at hkey
  | answered result => exact ⟨result, rfl⟩
  | _ => cases hfree _ hf

namespace Orderly

variable {s : SharedCache} {flights : List Flight}

theorem nodup_lookedUp (h : Orderly value s flights) : s.lookedUp.Nodup := by
  refine List.nodup_iff_count_le_one.mpr fun key => ?_
  rw [h.lookUps]
  cases hstored : s.cache.stored? key with
  | none =>
      have hfound : numberAt key Stage.isFound flights ≤
          numberAt key Stage.holdsLock flights := by
        refine List.countP_mono_left fun f _ hf => ?_
        cases hstage : f.stage <;> simp_all [Stage.isFound, Stage.holdsLock]
      have hlocks := h.locks key
      have hexclusive := h.exclusive key
      simp
      omega
  | some d =>
      have hnone : numberAt key Stage.isFound flights = 0 := by
        refine List.countP_eq_zero.mpr fun f hf hfound => ?_
        obtain ⟨r, stage⟩ := f
        cases stage with
        | found e =>
            have hfits := (h.fits _ hf).1
            simp [Flight.key, Stage.isFound] at hfound
            simp [Flight.key, hfound, hstored] at hfits
        | _ => simp [Stage.isFound] at hfound
      simp [hnone]

theorem result_eq (h : Orderly value s flights) {f : Flight} (hf : f ∈ flights)
    {result : Except ResolutionError ResolvedDependency}
    (hanswered : f.stage = .answered result) :
    s.cache.stored? f.key = some (value f.key) ∧
    result = .ok (value f.key) := by
  have hfits := h.fits f hf
  rw [Flight.Fits, hanswered] at hfits
  exact hfits

section Ends

variable (h : Orderly value s flights)
  (hanswered : ∀ f ∈ flights, ∃ result, f.stage = .answered result)

include h hanswered

omit h in
theorem stage_of_answered {p : Stage → Bool} {b : Bool}
    (hp : ∀ result, p (.answered result) = b) {f : Flight} (hf : f ∈ flights) :
    p f.stage = b := by
  obtain ⟨result, hresult⟩ := hanswered f hf
  rw [hresult, hp]

theorem stored_of_answered {f : Flight} (hf : f ∈ flights) :
    s.cache.stored? f.key = some (value f.key) := by
  obtain ⟨result, hresult⟩ := hanswered f hf
  exact (h.result_eq hf hresult).1

theorem mem_keys_iff (key : RequestKey) :
    key ∈ s.cache.keys ↔ key ∈ flights.map Flight.key := by
  rw [h.reserved, List.mem_map]
  exact exists_congr fun f => ⟨fun hf => ⟨hf.1, hf.2.1⟩, fun hf =>
    ⟨hf.1, hf.2, stage_of_answered hanswered (fun _ => rfl) hf.1⟩⟩

theorem mem_lookedUp_iff (key : RequestKey) :
    key ∈ s.lookedUp ↔ key ∈ s.cache.keys := by
  have hnone : numberAt key Stage.isFound flights = 0 := by
    refine List.countP_eq_zero.mpr fun f hf => ?_
    simp [stage_of_answered hanswered (p := Stage.isFound) (fun _ => rfl) hf]
  rw [← List.count_pos_iff, h.lookUps, hnone, Nat.add_zero]
  constructor
  · intro hpos
    cases hkey : s.cache.stored? key with
    | none => simp [hkey] at hpos
    | some d =>
        obtain ⟨slot, hslot, -⟩ := Option.bind_eq_some_iff.mp hkey
        exact Cache.isSome_slot?_iff.mp (by simp [hslot])
  · intro hmem
    obtain ⟨f, hf, rfl⟩ :=
      List.mem_map.mp ((h.mem_keys_iff hanswered key).mp hmem)
    simp [h.stored_of_answered hanswered hf]

theorem misses_eq_length : s.cache.misses = s.lookedUp.length := by
  have hnone : flights.countP (fun f => f.stage.isMissed) = 0 := by
    refine List.countP_eq_zero.mpr fun f hf => ?_
    simp [stage_of_answered hanswered (p := Stage.isMissed) (fun _ => rfl) hf]
  rw [h.misses, hnone, Nat.add_zero]

theorem hits_add_misses : s.cache.hits + s.cache.misses = flights.length := by
  rw [h.counted]
  exact List.countP_eq_length.mpr fun f hf =>
    stage_of_answered hanswered (fun _ => rfl) hf

theorem settled : Traffic.Settled value ⟨s, flights⟩ := by
  have hlookedUp : s.lookedUp.Perm s.cache.keys :=
    (List.perm_ext_iff_of_nodup h.nodup_lookedUp h.slots).mpr
      (h.mem_lookedUp_iff hanswered)
  have hdistinct : s.cache.keys.Perm (distinct (flights.map Flight.key)) :=
    (List.perm_ext_iff_of_nodup h.slots (nodup_distinct _)).mpr fun key =>
      (h.mem_keys_iff hanswered key).trans mem_distinct.symm
  have hslots : s.cache.keys.length = s.cache.slots.length := List.length_map _
  have hmisses : s.cache.misses = s.cache.slots.length := by
    rw [h.misses_eq_length hanswered, hlookedUp.length_eq, hslots]
  exact {
    answered := fun f hf => by
      obtain ⟨result, hresult⟩ := hanswered f hf
      rw [hresult, (h.result_eq hf hresult).2]
    stored := fun f hf => h.stored_of_answered hanswered hf
    misses := hmisses
    entries := hslots.symm.trans hdistinct.length_eq
    hits := by
      rw [← hmisses]
      exact h.hits_add_misses hanswered }

end Ends

end Orderly

/-! ## One request alone -/

/-- The steps of a request with nothing else under way are those of a single
answer. -/
theorem Traffic.run?_alone (r : Request) (cache : Cache)
    (lookedUp : List RequestKey) :
    ∃ order lookedUp', run? ⟨⟨cache, [], lookedUp⟩, [⟨r, .asked⟩]⟩ order =
      some ⟨⟨(r.answer cache).2, [], lookedUp'⟩,
        [⟨r, .answered (r.answer cache).1⟩]⟩ := by
  have hstored := Cache.stored?_reserve cache r.key r.key
  unfold Request.answer Cache.fetch
  cases hcase : cache.stored? r.key with
  | some d =>
      have hreserve : cache.reserve r.key = cache := by
        obtain ⟨slot, hslot, -⟩ := Option.bind_eq_some_iff.mp hcase
        rw [Cache.reserve, hslot]
        rfl
      refine ⟨List.replicate 4 0, lookedUp, ?_⟩
      simp [List.replicate, run?, advance?, Flight.advance?, Flight.key,
        hreserve, hcase, SharedCache.countHit]
  | none =>
      rw [hcase] at hstored
      cases hlookUp : r.lookUp with
      | ok d =>
          refine ⟨List.replicate 6 0, r.key :: lookedUp, ?_⟩
          simp [List.replicate, run?, advance?, Flight.advance?, Flight.key,
            hstored, hlookUp, SharedCache.countMiss]
      | error cause =>
          refine ⟨List.replicate 5 0, r.key :: lookedUp, ?_⟩
          simp [List.replicate, run?, advance?, Flight.advance?, Flight.key,
            hstored, hlookUp, SharedCache.countMiss]

/-! ## All requests together -/

namespace Resolution

variable {c : Config} {files : FileTree} {ds : List Dependency}

deriving instance Inhabited for DependencyKind, Presence, ResolvedDependency

theorem exists_values
    (h : ∀ d ∈ ds, ∃ e, (requestOf c files d).lookUp = .ok e) :
    ∃ value : RequestKey → ResolvedDependency, ∀ d ∈ ds,
      (requestOf c files d).lookUp = .ok (value (requestOf c files d).key) := by
  classical
  have hkeys : ∀ key : RequestKey, ∃ e : ResolvedDependency, ∀ d ∈ ds,
      (requestOf c files d).key = key →
      (requestOf c files d).lookUp = .ok e := by
    intro key
    by_cases hkey : ∃ d ∈ ds, (requestOf c files d).key = key
    · obtain ⟨d, hd, rfl⟩ := hkey
      obtain ⟨e, he⟩ := h d hd
      refine ⟨e, fun d' _ hsame => ?_⟩
      have hrequest : requestOf c files d' = requestOf c files d :=
        Cache.request_eq_of_key_eq rfl rfl hsame
      rw [hrequest]
      exact he
    · refine ⟨default, fun d hd hsame => ?_⟩
      exact absurd ⟨d, hd, hsame⟩ hkey
  choose value hvalue using hkeys
  exact ⟨value, fun d hd => hvalue _ d hd rfl⟩

theorem result_resolveEach {value : RequestKey → ResolvedDependency}
    (hvalue : ∀ d ∈ ds, (requestOf c files d).lookUp =
      .ok (value (requestOf c files d).key)) :
    ((resolveEach c files ds).onCache .empty).1 =
      .ok (ds.map fun d => value (requestOf c files d).key) := by
  rw [result_onCache (asksOn_resolveEach c files ds), given_resolveEach]
  induction ds with
  | nil => rfl
  | cons d rest ih =>
      have hd : Cache.empty.answers (requestOf c files d) =
          .ok (value (requestOf c files d).key) :=
        (Cache.answers_eq _ _).trans (hvalue d List.mem_cons_self)
      rw [List.mapM_cons, hd, ih fun d hd =>
        hvalue d (List.mem_cons_of_mem _ hd)]
      rfl

end Resolution

namespace Traffic

/-- The requests for dependencies that can be looked up, in any order of their
steps: no key is looked up twice, all answers are the values of the keys, as
they are one after another, and there are ends, with one miss for each key. -/
theorem single_flight (c : Config) (files : FileTree) (ds : List Dependency)
    (hlookUps : ∀ d ∈ ds, ∃ e, (requestOf c files d).lookUp = .ok e) :
    ∃ value : RequestKey → ResolvedDependency,
      (∀ order : List Dependency, order.Perm ds →
        ((resolveEach c files order).onCache .empty).1 =
          .ok (order.map fun d => value (requestOf c files d).key)) ∧
      ∀ (order : List Nat) (t : Traffic),
        (start (ds.map (requestOf c files))).run? order = some t →
          t.flights.map Flight.request = ds.map (requestOf c files) ∧
          t.shared.lookedUp.Nodup ∧
          (∀ f ∈ t.flights, ∀ result, f.stage = .answered result →
            result = .ok (value f.key)) ∧
          order.length ≤ 6 * ds.length ∧
          ((∀ i, t.advance? i = none) → t.Settled value) := by
  obtain ⟨value, hvalue⟩ := exists_values hlookUps
  refine ⟨value, ?_, ?_⟩
  · intro order hperm
    exact result_resolveEach fun d hd => hvalue d (hperm.mem_iff.mp hd)
  · intro order t hrun
    have hrequests : ∀ r ∈ ds.map (requestOf c files),
        r.lookUp = .ok (value r.key) :=
      List.forall_mem_map.mpr hvalue
    obtain ⟨hsound, hsteps⟩ := (sound_start value _).run hrequests hrun
    rw [stepsLeft_start, List.length_map] at hsteps
    refine ⟨hsound.requests, hsound.orderly.nodup_lookedUp, ?_, by omega, ?_⟩
    · intro f hf result hanswered
      exact (hsound.orderly.result_eq hf hanswered).2
    · intro hstuck
      have hnone := advance?_eq_none_iff.mp hstuck
      exact hsound.orderly.settled fun f hf =>
        hsound.orderly.exists_answered hnone hf

def threeRequests : List Dependency :=
  [.ofName .agent "x", .ofName .agent "x", .ofName .agent "y"]

/-- The second request gets the lock before the first, which finds what it
stored. -/
def overtaking : List Nat := [0, 1, 1, 2, 1, 2, 2, 1, 2, 1, 1, 0, 2, 0, 2, 0]

theorem single_flight_overtaking :
    ∃ value t,
      (start (threeRequests.map (requestOf .standard .empty))).run? overtaking =
        some t ∧
      t.shared.cache.hits = 1 ∧ t.shared.cache.misses = 2 ∧
      t.Settled value := by
  have hlookUps : ∀ d ∈ threeRequests,
      (requestOf .standard .empty d).lookUp.isOk = true := by
    decide +kernel
  obtain ⟨value, -, hruns⟩ :=
    single_flight .standard .empty threeRequests fun d hd => by
    have hok := hlookUps d hd
    cases hlookUp : (requestOf .standard .empty d).lookUp with
    | ok e => exact ⟨e, rfl⟩
    | error cause => simp [hlookUp, Except.isOk, Except.toBool] at hok
  have hends : ((start (threeRequests.map (requestOf .standard .empty))).run?
      overtaking).map (fun t => (t.shared.cache.hits, t.shared.cache.misses,
        t.flights.all fun f => (f.advance? t.shared).isNone)) =
        some (1, 2, true) := by
    decide +kernel
  obtain ⟨t, hrun, hcounts⟩ := Option.map_eq_some_iff.mp hends
  obtain ⟨hhits, hmisses, hstuck⟩ :
      t.shared.cache.hits = 1 ∧ t.shared.cache.misses = 2 ∧
        ∀ f ∈ t.flights, f.advance? t.shared = none := by
    simpa using hcounts
  obtain ⟨-, -, -, -, hsettled⟩ := hruns overtaking t hrun
  exact ⟨value, t, hrun, hhits, hmisses,
    hsettled (advance?_eq_none_iff.mpr hstuck)⟩

end Traffic

end Workflows
