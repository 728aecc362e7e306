import Workflows.Proofs.Resolution.Accounts

/-!
# Work done again

A cache keeps what it has stored while requests are answered, and has every
answer that it gave.  So work that succeeded finds all its answers in the cache
that it left, and the same work on that cache comes to the same result with
nothing looked up.
-/

namespace Workflows

/-! ## What stays stored -/

namespace Cache

def KeptBy (cache later : Cache) : Prop :=
  ∀ key d, cache.stored? key = some d → later.stored? key = some d

namespace KeptBy

theorem refl (cache : Cache) : cache.KeptBy cache := fun _ _ h => h

theorem trans {first second third : Cache} (h : first.KeptBy second)
    (h' : second.KeptBy third) : first.KeptBy third :=
  fun key d hd => h' key d (h key d hd)

theorem answer (cache : Cache) (request : Request) :
    cache.KeptBy (request.answer cache).2 := by
  intro key d hd
  rw [Request.answer, stored?_fetch]
  by_cases hkey : request.key = key
  · rw [if_pos hkey, fetch_of_stored _ (hkey ▸ hd)]
    rfl
  · rwa [if_neg hkey]

theorem onCache {α : Type} (work : Resolving α) (cache : Cache) :
    cache.KeptBy (work.onCache cache).2 := by
  induction work generalizing cache with
  | done result => exact .refl cache
  | ask request onward ih =>
      have hanswer := answer cache request
      rw [Resolving.onCache]
      generalize request.answer cache = outcome at hanswer ⊢
      obtain ⟨cause | d, left⟩ := outcome
      · exact hanswer
      · exact hanswer.trans (ih d left)

end KeptBy

theorem stored?_of_answer {cache left : Cache} {request : Request}
    {d : ResolvedDependency} (h : request.answer cache = (.ok d, left)) :
    left.stored? request.key = some d := by
  have hstored : (request.answer cache).2.stored? request.key =
      (request.answer cache).1.toOption := by
    rw [Request.answer, stored?_fetch, if_pos rfl]
  rwa [h] at hstored

def afterHits (cache : Cache) (n : Nat) : Cache :=
  { cache with hits := cache.hits + n }

@[simp] theorem stored?_afterHits (cache : Cache) (n : Nat) (key : RequestKey) :
    (cache.afterHits n).stored? key = cache.stored? key := rfl

@[simp] theorem afterHits_afterHits (cache : Cache) (m n : Nat) :
    (cache.afterHits m).afterHits n = cache.afterHits (m + n) := by
  simp [afterHits, Nat.add_assoc]

end Cache

/-! ## The second run -/

/-- On a cache that has all that the work left stored, each of its requests is a
hit. -/
theorem Resolving.onCache_again {α : Type} {work : Resolving α}
    {cache left later : Cache} {value : α}
    (h : work.onCache cache = (.ok value, left)) (hkept : left.KeptBy later) :
    work.onCache later =
      (.ok value, later.afterHits (work.events cache).length) := by
  induction work generalizing cache later with
  | done result =>
      cases h
      rfl
  | ask request onward ih =>
      rw [onCache] at h
      rw [events]
      rcases hanswer : request.answer cache with ⟨cause | d, between⟩
      · simp [hanswer] at h
      · simp only [hanswer] at h ⊢
        have hbetween := Cache.KeptBy.onCache (onward d) between
        rw [h] at hbetween
        -- the answer was stored when it was given, and is stored still
        have hstored : later.stored? request.key = some d :=
          hkept _ _ (hbetween _ _ (Cache.stored?_of_answer hanswer))
        have hagain : request.answer later = (.ok d, later.afterHits 1) :=
          Cache.fetch_of_stored _ hstored
        have hrest : (onward d).onCache (later.afterHits 1) = (.ok value,
            (later.afterHits 1).afterHits ((onward d).events between).length) :=
          ih d h hkept
        simp only [onCache, hagain, hrest]
        rw [Cache.afterHits_afterHits, List.length_cons, Nat.add_comm]

namespace Resolution

/-- A workflow that was resolved is resolved again in the same way as long as
the files stay: nothing is looked up, nothing new is stored, and every request
of the first time is a hit. -/
theorem resolveWorkflow_again (c : Config) (files : FileTree) (w : Workflow)
    (cache : Cache) (r : ResolutionResult) (left : Cache)
    (h : (resolveWorkflow c files w).onCache cache = (.ok r, left)) :
    ∃ again, (resolveWorkflow c files w).onCache left = (.ok r, again) ∧
      again.misses = left.misses ∧ again.slots = left.slots ∧
      again.hits = left.hits +
        ((resolveWorkflow c files w).events cache).length :=
  ⟨_, Resolving.onCache_again h (.refl left), rfl, rfl, rfl⟩

/-- Of the four dependencies two are missing, and a document names one more. -/
theorem resolveWorkflow_again_callerOfBoth :
    ∃ r left again,
      (resolveWorkflow .standard oneUsable callerOfBoth).onCache .empty =
      (.ok r, left) ∧
      (resolveWorkflow .standard oneUsable callerOfBoth).onCache left =
        (.ok r, again) ∧
      left.misses = 5 ∧ left.slots.length = 5 ∧ again.misses = 5 ∧
      again.slots.length = 5 ∧ again.hits = left.hits + 7 := by
  have hresult :
      ((resolveWorkflow .standard oneUsable callerOfBoth).onCache .empty).1.map
      (fun _ => ()) = .ok () := by
    decide +kernel
  have hcounts :
      ((resolveWorkflow .standard oneUsable callerOfBoth).onCache
        .empty).2.misses = 5 ∧
      ((resolveWorkflow .standard oneUsable callerOfBoth).onCache
        .empty).2.slots.length = 5 ∧
      ((resolveWorkflow .standard oneUsable callerOfBoth).events
        .empty).length = 7 := by
    decide +kernel
  obtain ⟨r, left, hrun, -⟩ := Resolving.exists_of_map_onCache hresult
  rw [hrun] at hcounts
  obtain ⟨hmisses, hslots, hevents⟩ := hcounts
  obtain ⟨again, hagain, hmisses', hslots', hhits⟩ :=
    resolveWorkflow_again .standard oneUsable callerOfBoth .empty r left hrun
  exact ⟨r, left, again, hrun, hagain, hmisses, hslots, hmisses'.trans hmisses,
    (congrArg List.length hslots').trans hslots, hevents ▸ hhits⟩

end Resolution

end Workflows
