import Workflows.Proofs.Resolution.Cache
import Workflows.Proofs.Resolution.Session

/-!
# Work put together

Work that goes on from other work makes the requests of both, the later ones on
the cache that the earlier ones leave.  Where the whole succeeds, so does each
part.
-/

namespace Workflows

namespace Resolving

variable {α β : Type}

theorem map_id (work : Resolving α) : id <$> work = work := by
  induction work with
  | done result => cases result <;> rfl
  | ask request onward ih => exact congrArg (ask request) (funext ih)

theorem bind_assoc {γ : Type} (work : Resolving α) (next : α → Resolving β)
    (last : β → Resolving γ) :
    work >>= next >>= last = work >>= fun value => next value >>= last := by
  induction work with
  | done result => cases result <;> rfl
  | ask request onward ih => exact congrArg (ask request) (funext ih)

instance : LawfulMonad Resolving :=
  LawfulMonad.mk' Resolving map_id (fun _ _ => rfl) bind_assoc

theorem onCache_bind {work : Resolving α} {next : α → Resolving β}
    {cache left : Cache} {value : α}
    (h : work.onCache cache = (.ok value, left)) :
    (work >>= next).onCache cache = (next value).onCache left := by
  induction work generalizing cache with
  | done result =>
      cases h
      rfl
  | ask request onward ih =>
      change (ask request fun d => onward d >>= next).onCache cache = _
      rw [onCache] at h ⊢
      generalize request.answer cache = outcome at h ⊢
      obtain ⟨cause | d, cache'⟩ := outcome
      · cases h
      · exact ih d h

theorem exists_of_bind {work : Resolving α} {next : α → Resolving β}
    {cache left : Cache} {value : β}
    (h : (work >>= next).onCache cache = (.ok value, left)) :
    ∃ middle between, work.onCache cache = (.ok middle, between) ∧
      (next middle).onCache between = (.ok value, left) ∧
      (work >>= next).events cache =
        work.events cache ++ (next middle).events between := by
  induction work generalizing cache with
  | done result =>
      cases result with
      | error cause => cases h
      | ok middle => exact ⟨middle, cache, rfl, h, rfl⟩
  | ask request onward ih =>
      change (ask request fun d => onward d >>= next).onCache cache = _ at h
      change ∃ middle between, (ask request onward).onCache cache = _ ∧ _ ∧
        (ask request fun d => onward d >>= next).events cache =
          (ask request onward).events cache ++ _
      rw [onCache] at h
      simp only [onCache, events]
      generalize request.answer cache = outcome at h ⊢
      obtain ⟨cause | d, cache'⟩ := outcome
      · cases h
      · obtain ⟨middle, between, hwork, hnext, hevents⟩ := ih d h
        exact ⟨middle, between, hwork, hnext,
          congrArg (.asked request (.ok d) :: ·) hevents⟩

theorem exists_of_map_onCache {work : Resolving α} {cache : Cache} {f : α → β}
    {seen : β} (h : (work.onCache cache).1.map f = .ok seen) :
    ∃ value left, work.onCache cache = (.ok value, left) ∧ f value = seen := by
  rcases hrun : work.onCache cache with ⟨cause | value, left⟩
  · rw [hrun] at h
    cases h
  · rw [hrun] at h
    exact ⟨value, left, rfl, Except.ok.inj h⟩

end Resolving

namespace Resolution

theorem onCache_resolve (c : Config) (files : FileTree) (kind : DependencyKind)
    (name : String) (path : Option String) (cache : Cache) :
    (resolve c files kind name path).onCache cache =
      (⟨c, files, kind, name, path⟩ : Request).answer cache := by
  rw [resolve, Resolving.onCache]
  rcases (⟨c, files, kind, name, path⟩ : Request).answer cache with
      ⟨cause | d, left⟩ <;> rfl

end Resolution

/-! ## Answers that stay -/

def Cache.AgreesExcept (ids : List String) (c c' : Cache) : Prop :=
  ∀ key, key.id ∉ ids → c'.stored? key = c.stored? key

namespace Cache.AgreesExcept

variable {ids : List String} {c c' : Cache}

theorem refl (ids : List String) (c : Cache) : AgreesExcept ids c c :=
  fun _ _ => rfl

theorem answer_eq (h : AgreesExcept ids c c') {request : Request}
    (hnew : request.key.id ∉ ids) :
    (request.answer c').1 = (request.answer c).1 := by
  rw [Request.answer, Request.answer, answer_fetch, answer_fetch, h _ hnew]

theorem answer (h : AgreesExcept ids c c') (request : Request) :
    AgreesExcept (request.key.id :: ids) c (request.answer c').2 := by
  intro key hkey
  have hne : request.key ≠ key := by
    rintro rfl
    exact hkey List.mem_cons_self
  rw [Request.answer, stored?_fetch, if_neg hne]
  exact h key fun hmem => hkey (List.mem_cons_of_mem _ hmem)

end Cache.AgreesExcept

end Workflows
