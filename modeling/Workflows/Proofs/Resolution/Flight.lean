import Mathlib.Data.List.Nodup
import Workflows.Proofs.Resolution.Cache
import Workflows.Resolution.Flight

/-!
# Order among requests that are under way together

A request holds the lock of its slot from the look into it until its answer is
stored, so what it has found out stays so in between, whatever steps the others
take.
-/

namespace Workflows

/-! ## Steps -/

namespace Stage

def holdsLock : Stage → Bool
  | holding | missed | found _ | served _ => true
  | asked | queued | answered _ => false

def isFound : Stage → Bool
  | found _ => true
  | _ => false

def isMissed : Stage → Bool
  | missed => true
  | _ => false

def isCounted : Stage → Bool
  | missed | found _ | served _ | answered _ => true
  | asked | queued | holding => false

def isAsked : Stage → Bool
  | asked => true
  | _ => false

def stepsLeft : Stage → Nat
  | asked => 6
  | queued => 5
  | holding => 4
  | missed => 3
  | found _ => 2
  | served _ => 1
  | answered _ => 0

end Stage

inductive Request.Move (r : Request) (s : SharedCache) :
    Stage → SharedCache → Stage → Prop
  | reserve : Move r s .asked { s with cache := s.cache.reserve r.key } .queued
  | lock (hfree : r.key ∉ s.locked) :
      Move r s .queued { s with locked := r.key :: s.locked } .holding
  | hit {d : ResolvedDependency} (hstored : s.cache.stored? r.key = some d) :
      Move r s .holding s.countHit (.served (.ok d))
  | miss (hnone : s.cache.stored? r.key = none) :
      Move r s .holding s.countMiss .missed
  | find {d : ResolvedDependency} (hlookUp : r.lookUp = .ok d) :
      Move r s .missed { s with lookedUp := r.key :: s.lookedUp } (.found d)
  | fail {cause : ResolutionError} (hlookUp : r.lookUp = .error cause) :
      Move r s .missed { s with lookedUp := r.key :: s.lookedUp }
        (.served (.error cause))
  | store {d : ResolvedDependency} :
      Move r s (.found d) { s with cache := s.cache.store r.key d }
        (.served (.ok d))
  | release {result : Except ResolutionError ResolvedDependency} :
      Move r s (.served result) { s with locked := s.locked.erase r.key }
        (.answered result)

theorem Flight.move_of_advance? {s s' : SharedCache} {f : Flight}
    {stage : Stage} (h : f.advance? s = some (s', stage)) :
    f.request.Move s f.stage s' stage := by
  obtain ⟨r, before⟩ := f
  cases before with
  | asked =>
      cases h
      exact .reserve
  | queued =>
      by_cases hlocked : r.key ∈ s.locked
      · simp [advance?, key, hlocked] at h
      · simp only [advance?, key, hlocked, if_false, Option.some.injEq,
          Prod.mk.injEq] at h
        obtain ⟨rfl, rfl⟩ := h
        exact .lock hlocked
  | holding =>
      cases hstored : s.cache.stored? r.key with
      | some d =>
          simp only [advance?, key, hstored, Option.some.injEq,
            Prod.mk.injEq] at h
          obtain ⟨rfl, rfl⟩ := h
          exact .hit hstored
      | none =>
          simp only [advance?, key, hstored, Option.some.injEq,
            Prod.mk.injEq] at h
          obtain ⟨rfl, rfl⟩ := h
          exact .miss hstored
  | missed =>
      cases hlookUp : r.lookUp with
      | ok d =>
          simp only [advance?, key, hlookUp, Option.some.injEq,
            Prod.mk.injEq] at h
          obtain ⟨rfl, rfl⟩ := h
          exact .find hlookUp
      | error cause =>
          simp only [advance?, key, hlookUp, Option.some.injEq,
            Prod.mk.injEq] at h
          obtain ⟨rfl, rfl⟩ := h
          exact .fail hlookUp
  | found d =>
      cases h
      exact .store
  | served result =>
      cases h
      exact .release
  | answered result => cases h

namespace Request.Move

variable {r : Request} {s s' : SharedCache} {a b : Stage}

theorem stepsLeft_lt (h : r.Move s a s' b) : b.stepsLeft < a.stepsLeft := by
  cases h <;> simp [Stage.stepsLeft]

theorem count_locked (h : r.Move s a s' b)
    (hlocked : a.holdsLock = true → r.key ∈ s.locked) (key : RequestKey) :
    s'.locked.count key + (if r.key == key && a.holdsLock then 1 else 0) =
      s.locked.count key + if r.key == key && b.holdsLock then 1 else 0 := by
  cases h with
  | lock hfree => simp [Stage.holdsLock, List.count_cons]
  | release =>
      have hmem := List.count_pos_iff.mpr (hlocked rfl)
      by_cases hkey : r.key = key
      · subst hkey
        simp [Stage.holdsLock]
        omega
      · simp [Stage.holdsLock, hkey, List.count_erase_of_ne (Ne.symm hkey)]
  | _ => rfl

theorem stored?_eq (h : r.Move s a s' b) :
    (∀ key, s'.cache.stored? key = s.cache.stored? key) ∨
      ∃ d, a = .found d ∧ b = .served (.ok d) ∧
      s' = { s with cache := s.cache.store r.key d } := by
  cases h with
  | reserve => exact .inl fun key => Cache.stored?_reserve s.cache r.key key
  | @store d => exact .inr ⟨d, rfl, rfl, rfl⟩
  | _ => exact .inl fun _ => rfl

theorem keys_eq (h : r.Move s a s' b) :
    s'.cache.keys = s.cache.keys ∨
      a = .asked ∧ r.key ∉ s.cache.keys ∧ s'.cache.keys =
        s.cache.keys ++ [r.key] := by
  cases h with
  | reserve =>
      by_cases hmem : r.key ∈ s.cache.keys
      · exact .inl (by rw [Cache.keys_reserve, if_pos hmem])
      · exact .inr ⟨rfl, hmem, by rw [Cache.keys_reserve, if_neg hmem]⟩
  | store => exact .inl (Cache.keys_store s.cache r.key _)
  | _ => exact .inl rfl

end Request.Move

/-! ## Order among the requests -/

section

variable (value : RequestKey → ResolvedDependency)

/-- What a request has found out so far is so, and its result is the value of
its key. -/
def Flight.Fits (cache : Cache) (f : Flight) : Prop :=
  match f.stage with
  | .asked | .queued | .holding => True
  | .missed => cache.stored? f.key = none
  | .found d => cache.stored? f.key = none ∧ d = value f.key
  | .served result | .answered result =>
      cache.stored? f.key = some (value f.key) ∧ result = .ok (value f.key)

def numberAt (key : RequestKey) (p : Stage → Bool) (flights : List Flight) :
    Nat :=
  flights.countP fun f => f.key == key && p f.stage

theorem numberAt_middle (key : RequestKey) (p : Stage → Bool)
    (before after : List Flight) (r : Request) (a : Stage) :
    numberAt key p (before ++ ⟨r, a⟩ :: after) =
      numberAt key p (before ++ after) + if r.key == key && p a then 1
        else 0 := by
  simp only [numberAt, List.countP_append, List.countP_cons, Flight.key]
  omega

theorem exists_mem_middle {α : Type} {before after : List α}
    {item : α} {p : α → Prop} :
    (∃ i ∈ before ++ item :: after, p i) ↔ p item ∨ ∃ i ∈ before ++ after,
      p i := by
  have hperm : (before ++ item :: after).Perm (item :: (before ++ after)) :=
    List.perm_middle
  simp only [hperm.mem_iff, List.exists_mem_cons_iff]

/-- The requests keep to the locks, and the counts are those of their stages. -/
structure Orderly (s : SharedCache) (flights : List Flight) : Prop where
  locks : ∀ key, s.locked.count key = numberAt key Stage.holdsLock flights
  exclusive : ∀ key, s.locked.count key ≤ 1
  slots : s.cache.keys.Nodup
  reserved : ∀ key, key ∈ s.cache.keys ↔
    ∃ f ∈ flights, f.key = key ∧ f.stage.isAsked = false
  fits : ∀ f ∈ flights, f.Fits value s.cache
  stored : ∀ key d, s.cache.stored? key = some d → d = value key
  lookUps : ∀ key, s.lookedUp.count key =
    (s.cache.stored? key).toList.length + numberAt key Stage.isFound flights
  misses : s.cache.misses =
    s.lookedUp.length + flights.countP fun f => f.stage.isMissed
  counted : s.cache.hits + s.cache.misses = flights.countP fun f =>
    f.stage.isCounted

end

namespace Orderly

variable {value : RequestKey → ResolvedDependency} {s s' : SharedCache}
  {before after : List Flight} {r : Request} {a b : Stage}

theorem mem_locked (h : Orderly value s (before ++ ⟨r, a⟩ :: after))
    (ha : a.holdsLock = true) : r.key ∈ s.locked := by
  have hlocks := h.locks r.key
  rw [numberAt_middle, if_pos (by simp [ha])] at hlocks
  exact List.count_pos_iff.mp (by omega)

theorem not_holdsLock (h : Orderly value s (before ++ ⟨r, a⟩ :: after))
    (ha : a.holdsLock = true) {f : Flight} (hf : f ∈ before ++ after)
    (hkey : f.key = r.key) :
    f.stage.holdsLock = false := by
  have hlocks := h.locks r.key
  have hexclusive := h.exclusive r.key
  rw [numberAt_middle, if_pos (by simp [ha])] at hlocks
  have hnone : numberAt r.key Stage.holdsLock (before ++ after) = 0 := by omega
  simpa [hkey] using List.countP_eq_zero.mp hnone f hf

theorem locks_move (h : Orderly value s (before ++ ⟨r, a⟩ :: after))
    (hmove : r.Move s a s' b) (key : RequestKey) :
    s'.locked.count key =
      numberAt key Stage.holdsLock (before ++ ⟨r, b⟩ :: after) ∧
      s'.locked.count key ≤ 1 := by
  have hcount := hmove.count_locked h.mem_locked key
  have hlocks := h.locks key
  have hexclusive := h.exclusive key
  rw [numberAt_middle] at hlocks ⊢
  refine ⟨?_, ?_⟩
  · omega
  · cases hmove with
    | lock hfree =>
        rw [List.count_cons]
        by_cases hkey : r.key = key
        · have hnone := List.count_eq_zero_of_not_mem hfree
          rw [hkey] at hnone
          simp [hkey, hnone]
        · simpa [hkey] using hexclusive
    | release =>
        exact Nat.le_trans (List.Sublist.count_le _ List.erase_sublist)
          hexclusive
    | _ => exact hexclusive

theorem key_mem_keys (h : Orderly value s (before ++ ⟨r, a⟩ :: after))
    (ha : a.isAsked = false) : r.key ∈ s.cache.keys :=
  (h.reserved r.key).mpr ⟨⟨r, a⟩, by simp, rfl, ha⟩

theorem slots_move (h : Orderly value s (before ++ ⟨r, a⟩ :: after))
    (hmove : r.Move s a s' b) : s'.cache.keys.Nodup := by
  rcases hmove.keys_eq with heq | ⟨-, hnew, heq⟩
  · rw [heq]
    exact h.slots
  · rw [heq]
    exact h.slots.append (List.nodup_singleton _)
      (List.disjoint_singleton.mpr hnew)

theorem reserved_move (h : Orderly value s (before ++ ⟨r, a⟩ :: after))
    (hmove : r.Move s a s' b) (key : RequestKey) :
    key ∈ s'.cache.keys ↔
      ∃ f ∈ before ++ ⟨r, b⟩ :: after, f.key = key ∧
      f.stage.isAsked = false := by
  have hb : b.isAsked = false := by cases hmove <;> rfl
  have hreserved := h.reserved key
  -- the key of the request is among the keys from its first step on
  have hkeys : key ∈ s'.cache.keys ↔ key ∈ s.cache.keys ∨ key = r.key := by
    cases hmove with
    | reserve =>
        rw [Cache.keys_reserve]
        split
        · next hmem =>
            exact ⟨.inl, fun hor => hor.elim id fun heq => heq ▸ hmem⟩
        · simp
    | store =>
        rw [Cache.keys_store]
        exact ⟨.inl, fun hor => hor.elim id fun heq => heq ▸ h.key_mem_keys rfl⟩
    | _ =>
        exact ⟨.inl, fun hor => hor.elim id fun heq => heq ▸ h.key_mem_keys rfl⟩
  rw [exists_mem_middle] at hreserved
  rw [hkeys, hreserved, exists_mem_middle]
  constructor
  · rintro ((⟨hkey, -⟩ | hother) | rfl)
    · exact .inl ⟨hkey, hb⟩
    · exact .inr hother
    · exact .inl ⟨rfl, hb⟩
  · rintro (⟨rfl, -⟩ | hother)
    · exact .inr rfl
    · exact .inl (.inr hother)

theorem fits_others (h : Orderly value s (before ++ ⟨r, a⟩ :: after))
    (hmove : r.Move s a s' b) {f : Flight} (hf : f ∈ before ++ after) :
    f.Fits value s'.cache := by
  have hfits : f.Fits value s.cache := by
    refine h.fits f ?_
    rcases List.mem_append.mp hf with hbefore | hafter <;> simp [*]
  rcases hmove.stored?_eq with hsame | ⟨d, rfl, rfl, rfl⟩
  · unfold Flight.Fits at hfits ⊢
    rw [hsame]
    exact hfits
  · have hstored := Cache.stored?_store (h.key_mem_keys rfl) d f.key
    by_cases hkey : f.key = r.key
    · -- another request for the key is before its look-up, as nothing is stored
      have hfree := h.not_holdsLock rfl hf hkey
      have hnone : s.cache.stored? r.key = none :=
        (h.fits ⟨r, .found d⟩ (by simp)).1
      obtain ⟨request, stage⟩ := f
      cases stage with
      | asked | queued => exact trivial
      | answered result =>
          have hsome := hfits.1
          rw [hkey, hnone] at hsome
          cases hsome
      | _ => cases hfree
    · rw [if_neg hkey] at hstored
      unfold Flight.Fits at hfits ⊢
      rw [hstored]
      exact hfits

theorem fits_mover (h : Orderly value s (before ++ ⟨r, a⟩ :: after))
    (hmove : r.Move s a s' b) (hvalue : r.lookUp = .ok (value r.key)) :
    Flight.Fits value s'.cache ⟨r, b⟩ := by
  have hfits := h.fits ⟨r, a⟩ (by simp)
  cases hmove with
  | reserve | lock => exact trivial
  | @hit d hstored =>
      obtain rfl := h.stored _ _ hstored
      exact ⟨hstored, rfl⟩
  | miss hnone => exact hnone
  | @find d hlookUp =>
      rw [hvalue] at hlookUp
      cases hlookUp
      exact ⟨hfits, rfl⟩
  | fail hlookUp =>
      rw [hvalue] at hlookUp
      cases hlookUp
  | @store d =>
      have hd : d = value r.key := hfits.2
      have hstored := Cache.stored?_store (h.key_mem_keys rfl) d r.key
      rw [if_pos rfl] at hstored
      exact ⟨hstored.trans (congrArg some hd), congrArg Except.ok hd⟩
  | release => exact hfits

theorem stored_move (h : Orderly value s (before ++ ⟨r, a⟩ :: after))
    (hmove : r.Move s a s' b) (key : RequestKey) (d : ResolvedDependency)
    (hd : s'.cache.stored? key = some d) : d = value key := by
  rcases hmove.stored?_eq with hsame | ⟨e, rfl, rfl, rfl⟩
  · rw [hsame] at hd
    exact h.stored key d hd
  · have hfits := h.fits ⟨r, .found e⟩ (by simp)
    rw [Cache.stored?_store (h.key_mem_keys rfl)] at hd
    split at hd
    · next hkey =>
        cases hd
        rw [hkey]
        exact hfits.2
    · exact h.stored key d hd

theorem lookUps_move (h : Orderly value s (before ++ ⟨r, a⟩ :: after))
    (hmove : r.Move s a s' b) (hvalue : r.lookUp = .ok (value r.key))
    (key : RequestKey) :
    s'.lookedUp.count key = (s'.cache.stored? key).toList.length +
      numberAt key Stage.isFound (before ++ ⟨r, b⟩ :: after) := by
  have hlookUps := h.lookUps key
  rw [numberAt_middle] at hlookUps ⊢
  cases hmove with
  | reserve =>
      rw [Cache.stored?_reserve]
      exact hlookUps
  | find hlookUp =>
      rw [List.count_cons]
      simp only [Stage.isFound, Bool.and_false, Bool.and_true] at hlookUps ⊢
      simp at hlookUps
      omega
  | fail hlookUp =>
      rw [hvalue] at hlookUp
      cases hlookUp
  | @store d =>
      have hnone : s.cache.stored? r.key = none :=
        (h.fits ⟨r, .found d⟩ (by simp)).1
      rw [Cache.stored?_store (h.key_mem_keys rfl)]
      by_cases hkey : r.key = key
      · subst hkey
        simp [hnone, Stage.isFound] at hlookUps ⊢
        omega
      · simpa [hkey, Ne.symm hkey, Stage.isFound] using hlookUps
  | _ => exact hlookUps

theorem counts_move (h : Orderly value s (before ++ ⟨r, a⟩ :: after))
    (hmove : r.Move s a s' b) :
    s'.cache.misses = s'.lookedUp.length +
        (before ++ ⟨r, b⟩ :: after).countP (fun f => f.stage.isMissed) ∧
      s'.cache.hits + s'.cache.misses =
        (before ++ ⟨r, b⟩ :: after).countP fun f => f.stage.isCounted := by
  have hmisses := h.misses
  have hcounted := h.counted
  simp only [List.countP_append, List.countP_cons] at hmisses hcounted ⊢
  cases hmove with
  | reserve =>
      simp only [Cache.hits_reserve, Cache.misses_reserve]
      exact ⟨hmisses, hcounted⟩
  | lock | store | release => exact ⟨hmisses, hcounted⟩
  | hit =>
      refine ⟨hmisses, ?_⟩
      simp [Stage.isCounted, SharedCache.countHit] at hcounted ⊢
      omega
  | miss =>
      simp [Stage.isCounted, Stage.isMissed, SharedCache.countMiss]
        at hmisses hcounted ⊢
      omega
  | find | fail =>
      refine ⟨?_, hcounted⟩
      simp [Stage.isMissed] at hmisses ⊢
      omega

end Orderly

end Workflows
