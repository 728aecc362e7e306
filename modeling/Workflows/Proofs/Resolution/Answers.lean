import Workflows.Proofs.Resolution.Entries
import Workflows.Proofs.Resolution.Work
import Workflows.Proofs.Workflow.Reference

/-!
# Answers that one cache gives

As long as the files stay, a request that was answered is answered in the same
way again, whatever was asked for in between.  So all requests of a piece of
work are answered from one table, the answers of the cache that the work began
on.
-/

namespace Workflows

/-! ## Results of parts -/

theorem forall₂_of_mapM {ε α β : Type} {f : α → Except ε β} {values : List α}
    {results : List β} (h : values.mapM f = .ok results) :
    List.Forall₂ (fun value result => f value = .ok result) values results := by
  induction values generalizing results with
  | nil =>
      cases h
      exact .nil
  | cons value rest ih =>
      rw [List.mapM_cons] at h
      obtain ⟨result, hresult, h⟩ := exists_of_bind_ok h
      obtain ⟨others, hothers, h⟩ := exists_of_bind_ok h
      cases h
      exact .cons hresult (ih hothers)

/-! ## Tables of answers -/

abbrev AnswerTable := Request → Except ResolutionError ResolvedDependency

def Cache.answers (cache : Cache) : AnswerTable :=
  fun request => (request.answer cache).1

theorem Cache.answers_eq (cache : Cache) (request : Request) :
    cache.answers request =
      match cache.stored? request.key with
      | some d => .ok d
      | none => request.lookUp :=
  answer_fetch _ cache request.key

namespace Resolving

variable {α β : Type} {c : Config} {files : FileTree}

/-- The result of the work where every request is answered from a table. -/
def given (table : AnswerTable) : Resolving α → Except ResolutionError α
  | done result => result
  | ask request onward => table request >>= fun d => (onward d).given table

theorem given_bind (table : AnswerTable) (work : Resolving α)
    (next : α → Resolving β) :
    (work >>= next).given table =
      work.given table >>= fun value => (next value).given table := by
  induction work with
  | done result => cases result <;> rfl
  | ask request onward ih =>
      change (table request >>= fun d => (onward d >>= next).given table) =
        table request >>= (fun d => (onward d).given table) >>= _
      cases table request with
      | error cause => rfl
      | ok d => exact ih d

theorem given_mapM (table : AnswerTable) (f : α → Resolving β)
    (values : List α) :
    (values.mapM f).given table = values.mapM fun value =>
      (f value).given table := by
  induction values with
  | nil => rfl
  | cons value rest ih =>
      rw [List.mapM_cons, List.mapM_cons, given_bind]
      refine congrArg _ (funext fun _ => ?_)
      rw [given_bind, ih]
      rfl

def AsksOn (c : Config) (files : FileTree) : Resolving α → Prop
  | done _ => True
  | ask request onward =>
      request.config = c ∧ request.files = files ∧ ∀ d,
        (onward d).AsksOn c files

theorem AsksOn.bind {work : Resolving α} {next : α → Resolving β}
    (h : work.AsksOn c files) (hnext : ∀ value, (next value).AsksOn c files) :
    (work >>= next).AsksOn c files := by
  induction work with
  | done result =>
      cases result with
      | ok value => exact hnext value
      | error cause => exact trivial
  | ask request onward ih =>
      exact ⟨h.1, h.2.1, fun d => ih d (h.2.2 d)⟩

theorem AsksOn.mapM {f : α → Resolving β}
    (h : ∀ value, (f value).AsksOn c files) (values : List α) :
    (values.mapM f).AsksOn c files := by
  induction values with
  | nil => exact trivial
  | cons value rest ih =>
      rw [List.mapM_cons]
      exact (h value).bind fun _ => ih.bind fun _ => trivial

end Resolving

namespace Cache

variable {c : Config} {files : FileTree} {first cache : Cache}

def Serves (c : Config) (files : FileTree) (first cache : Cache) : Prop :=
  ∀ request : Request, request.config = c → request.files = files →
    cache.answers request = first.answers request

theorem Serves.refl (c : Config) (files : FileTree) (cache : Cache) :
    Serves c files cache cache := fun _ _ _ => rfl

theorem request_eq_of_key_eq {request other : Request}
    (hconfig : request.config = other.config)
    (hfiles : request.files = other.files) (h : request.key = other.key) :
    request = other := by
  obtain ⟨config, files, kind, name, path⟩ := request
  obtain ⟨config', files', kind', name', path'⟩ := other
  obtain ⟨hid, hpath⟩ := RequestKey.mk.inj h
  obtain ⟨hkind, hname⟩ := Reference.key_inj.mp hid
  cases hconfig
  cases hfiles
  cases hkind
  cases hname
  cases hpath
  rfl

theorem Serves.answer (h : Serves c files first cache) {request : Request}
    (hconfig : request.config = c) (hfiles : request.files = files) :
    Serves c files first (request.answer cache).2 := by
  intro other hconfig' hfiles'
  rw [← h other hconfig' hfiles', answers_eq, answers_eq, Request.answer,
    stored?_fetch]
  by_cases hkey : request.key = other.key
  · obtain rfl := request_eq_of_key_eq (hconfig.trans hconfig'.symm)
      (hfiles.trans hfiles'.symm) hkey
    rw [if_pos rfl, answer_fetch]
    cases cache.stored? request.key with
    | some d => rfl
    | none => cases hlookUp : request.lookUp <;> rfl
  · rw [if_neg hkey]

end Cache

theorem Resolving.onCache_eq_given {α : Type} {c : Config} {files : FileTree}
    {first cache : Cache} {work : Resolving α} (hasks : work.AsksOn c files)
    (h : Cache.Serves c files first cache) :
    (work.onCache cache).1 = work.given first.answers ∧
      Cache.Serves c files first (work.onCache cache).2 := by
  induction work generalizing cache with
  | done result => exact ⟨rfl, h⟩
  | ask request onward ih =>
      obtain ⟨hconfig, hfiles, honward⟩ := hasks
      have hserves := h.answer hconfig hfiles
      have hanswer := h request hconfig hfiles
      rw [onCache, given, ← hanswer, Cache.answers]
      generalize request.answer cache = outcome at hserves ⊢
      obtain ⟨cause | d, left⟩ := outcome
      · exact ⟨rfl, hserves⟩
      · exact ih d (honward d) hserves

theorem Cache.AllCoherent.answers {cache : Cache} (h : cache.AllCoherent)
    {request : Request} {d : ResolvedDependency}
    (hanswer : cache.answers request = .ok d) : Coherent request.key d := by
  rw [answers_eq] at hanswer
  cases hstored : cache.stored? request.key with
  | none =>
      rw [hstored] at hanswer
      exact Resolution.coherent_lookUp hanswer
  | some e =>
      rw [hstored] at hanswer
      cases hanswer
      obtain ⟨slot, hslot, hentry⟩ := Option.bind_eq_some_iff.mp hstored
      have hcoherent := h slot (List.mem_of_find?_eq_some hslot) d hentry
      rwa [key_of_slot? hslot] at hcoherent

end Workflows
