import Workflows.Proofs.Resolution.Entries
import Workflows.Proofs.Resolution.Flight
import Workflows.Proofs.Resolution.Footprint
import Workflows.Proofs.Resolution.Work

/-!
# What a failed request leaves behind

A request that fails leaves a miss and, where its key had no slot, an empty one.
Only who asks how many slots there are is told of it, and only until the key is
asked for again or all is forgotten.  Slots are in no certain order: each
operation visits them in an order of its own.
-/

namespace Workflows

/-! ## Empty slots -/

namespace Slot

def isFilled (s : Slot) : Bool := s.entry.isSome

def filled (slots : List Slot) : List Slot := slots.filter isFilled

def vacant (slots : List Slot) : List Slot := slots.filter fun s => !s.isFilled

theorem perm_filled_append_vacant (slots : List Slot) :
    (filled slots ++ vacant slots).Perm slots :=
  List.filter_append_perm isFilled slots

@[simp] theorem filled_append (slots more : List Slot) :
    filled (slots ++ more) = filled slots ++ filled more :=
  List.filter_append slots more

theorem filled_cons_empty (key : RequestKey) (slots : List Slot) :
    filled (⟨key, none⟩ :: slots) = filled slots := rfl

theorem filled_cons_some (key : RequestKey) (d : ResolvedDependency)
    (slots : List Slot) :
    filled (⟨key, some d⟩ :: slots) = ⟨key, some d⟩ :: filled slots := rfl

end Slot

namespace Cache

theorem entriesOf_eq_filled (c : Cache) (id : String) :
    c.entriesOf id =
      ((Slot.filled c.slots).filter fun s => s.key.id == id).filterMap
        Slot.entry := by
  unfold entriesOf
  induction c.slots with
  | nil => rfl
  | cons slot rest ih =>
      obtain ⟨key, _ | d⟩ := slot
      · rw [Slot.filled_cons_empty, ← ih, List.filter_cons]
        split <;> rfl
      · rw [Slot.filled_cons_some, List.filter_cons, List.filter_cons]
        split
        · exact congrArg (d :: ·) ih
        · exact ih

end Cache

/-! ## The slot that is left -/

namespace Cache

/-- The slot that a request for the key adds, if there is none; nothing without
a key. -/
def spare (c : Cache) : Option RequestKey → List Slot
  | some key => if key ∈ c.keys then [] else [⟨key, none⟩]
  | none => []

theorem slots_reserve (c : Cache) (key : RequestKey) :
    (c.reserve key).slots = c.slots ++ c.spare (some key) := by
  unfold reserve spare
  simp only [isSome_slot?_iff]
  split
  · exact (List.append_nil _).symm
  · rfl

theorem spare_congr {c c' : Cache} (h : c'.keys.Perm c.keys)
    (left : Option RequestKey) :
    c'.spare left = c.spare left := by
  cases left with
  | none => rfl
  | some key => simp only [spare, h.mem_iff]

theorem filled_spare (c : Cache) (left : Option RequestKey) :
    Slot.filled (c.spare left) = [] := by
  unfold spare
  split
  · split <;> rfl
  · rfl

theorem vacant_spare (c : Cache) (left : Option RequestKey) :
    Slot.vacant (c.spare left) = c.spare left := by
  unfold spare
  split
  · split <;> rfl
  · rfl

/-- The cache as it would be with a failed request for the key before; without a
key, with one that was made before all was forgotten. -/
def withFailure (c : Cache) (left : Option RequestKey) : Cache :=
  ⟨c.slots ++ c.spare left, c.hits, c.misses + 1⟩

theorem fetch_of_error {c : Cache} {key : RequestKey}
    {resolve : Unit → Except ResolutionError ResolvedDependency}
    {cause : ResolutionError}
    (hfails : (c.fetch key resolve).1 = .error cause) :
    (c.fetch key resolve).2 = c.withFailure (some key) := by
  unfold fetch at hfails ⊢
  cases hstored : c.stored? key with
  | some d =>
      rw [hstored] at hfails
      cases hfails
  | none =>
      simp only [hstored] at hfails ⊢
      cases hresolve : resolve () with
      | ok d =>
          rw [hresolve] at hfails
          cases hfails
      | error cause =>
          dsimp only
          rw [slots_reserve, hits_reserve]
          rfl

theorem entriesOf_withFailure (c : Cache) (left : Option RequestKey)
    (id : String) :
    (c.withFailure left).entriesOf id = c.entriesOf id := by
  rw [entriesOf_eq_filled, entriesOf_eq_filled, withFailure, Slot.filled_append,
    filled_spare, List.append_nil]

/-- The other cache has seen one failed request more, and its slots are in any
order. -/
structure AfterFailure (left : Option RequestKey) (c c' : Cache) : Prop where
  nodup : c.keys.Nodup
  slots : c'.slots.Perm (c.slots ++ c.spare left)
  hits : c'.hits = c.hits
  misses : c'.misses = c.misses + 1

theorem nodup_append_spare {c : Cache} (h : c.keys.Nodup)
    (left : Option RequestKey) :
    ((c.slots ++ c.spare left).map Slot.key).Nodup := by
  rw [List.map_append]
  unfold spare
  split
  · split
    · exact (List.append_nil c.keys).symm ▸ h
    · next hnew =>
        exact h.append (List.nodup_singleton _)
          (List.disjoint_singleton.mpr hnew)
  · exact (List.append_nil c.keys).symm ▸ h

namespace AfterFailure

variable {left : Option RequestKey} {c c' : Cache}

theorem mem_keys_iff (h : AfterFailure left c c') {key : RequestKey} :
    key ∈ c'.keys ↔ key ∈ c.keys ∨ left = some key := by
  rw [keys, (h.slots.map Slot.key).mem_iff, List.map_append, List.mem_append]
  refine or_congr_right' fun hnew => ?_
  cases left with
  | none => simp [spare]
  | some k =>
      by_cases hk : k ∈ c.keys
      · have hne : k ≠ key := fun heq => hnew (heq ▸ hk)
        simp [spare, hk, hne]
      · simp [spare, hk, eq_comm]

theorem nodup_keys (h : AfterFailure left c c') : c'.keys.Nodup :=
  (h.slots.map Slot.key).nodup_iff.mpr (nodup_append_spare h.nodup left)

theorem stored?_eq (h : AfterFailure left c c') (key : RequestKey) :
    c'.stored? key = c.stored? key := by
  refine Option.ext fun d => ?_
  rw [stored?_eq_some_iff h.nodup_keys, stored?_eq_some_iff h.nodup,
    h.slots.mem_iff, List.mem_append]
  refine or_iff_left fun hspare => ?_
  have hfilled : ⟨key, some d⟩ ∈ Slot.filled (c.spare left) :=
    List.mem_filter.mpr ⟨hspare, rfl⟩
  rw [filled_spare] at hfilled
  cases hfilled

theorem slots_reserve (h : AfterFailure left c c') (key : RequestKey) :
    (c'.reserve key).slots.Perm
      ((c.reserve key).slots ++ (c.reserve key).spare left) := by
  rw [Cache.slots_reserve, Cache.slots_reserve]
  refine (h.slots.append_right _).trans ?_
  rw [List.append_assoc, List.append_assoc]
  refine List.Perm.append_left _ ?_
  -- what was left for the key itself is what the request would add now
  have hkeys : ∀ k, k ∈ (c.reserve key).keys ↔ k ∈ c.keys ∨ k = key := by
    intro k
    rw [keys_reserve]
    split
    · next hmem => exact ⟨.inl, fun hk => hk.elim id (· ▸ hmem)⟩
    · simp
  cases left with
  | none => simp [spare, h.mem_keys_iff]
  | some k =>
      by_cases hk : k = key
      · subst hk
        simp [spare, h.mem_keys_iff, hkeys]
      · simp only [spare, h.mem_keys_iff, hkeys, Option.some.injEq, hk,
          or_false]
        exact List.perm_append_comm

theorem slots_store (h : AfterFailure left c c') {key : RequestKey}
    (hkey : key ∈ c.keys) (d : ResolvedDependency) :
    (c'.store key d).slots.Perm
      ((c.store key d).slots ++ (c.store key d).spare left) := by
  rw [spare_congr (.of_eq (keys_store c key d))]
  refine (h.slots.map _).trans (.of_eq ?_)
  rw [List.map_append]
  refine congrArg _ ?_
  unfold spare
  split
  · split
    · rfl
    · next k hnew =>
        have hne : k ≠ key := fun heq => hnew (heq ▸ hkey)
        simp [hne]
  · rfl

theorem reserve (h : AfterFailure left c c') (key : RequestKey) :
    AfterFailure left (c.reserve key) (c'.reserve key) where
  nodup := nodup_keys_reserve h.nodup key
  slots := h.slots_reserve key
  hits := by rw [hits_reserve, hits_reserve, h.hits]
  misses := by rw [misses_reserve, misses_reserve, h.misses]

theorem store (h : AfterFailure left c c') {key : RequestKey}
    (hkey : key ∈ c.keys) (d : ResolvedDependency) :
    AfterFailure left (c.store key d) (c'.store key d) where
  nodup := (keys_store c key d).symm ▸ h.nodup
  slots := h.slots_store hkey d
  hits := h.hits
  misses := h.misses

theorem countHit (h : AfterFailure left c c') :
    AfterFailure left { c with hits := c.hits + 1 }
      { c' with hits := c'.hits + 1 } where
  nodup := h.nodup
  slots := h.slots
  hits := congrArg (· + 1) h.hits
  misses := h.misses

theorem countMiss (h : AfterFailure left c c') :
    AfterFailure left { c with misses := c.misses + 1 }
      { c' with misses := c'.misses + 1 } where
  nodup := h.nodup
  slots := h.slots
  hits := h.hits
  misses := congrArg (· + 1) h.misses

theorem answer (h : AfterFailure left c c') (request : Request) :
    (request.answer c').1 = (request.answer c).1 ∧
      AfterFailure left (request.answer c).2 (request.answer c').2 := by
  have hreserved : AfterFailure left { c.reserve request.key with
      misses := c.misses + 1 }
      { c'.reserve request.key with misses := c'.misses + 1 } := by
    have hcounted := (h.reserve request.key).countMiss
    rwa [misses_reserve, misses_reserve] at hcounted
  unfold Request.answer fetch
  rw [h.stored?_eq]
  cases c.stored? request.key with
  | some d => exact ⟨rfl, h.countHit⟩
  | none =>
      cases request.lookUp with
      | error cause => exact ⟨rfl, hreserved⟩
      | ok d =>
          have hkey : request.key ∈ (c.reserve request.key).keys := by
            rw [keys_reserve]
            split
            · assumption
            · exact List.mem_append_right _ (List.mem_singleton_self _)
          exact ⟨rfl, hreserved.store hkey d⟩

theorem onCache {α : Type} (h : AfterFailure left c c') (work : Resolving α) :
    (work.onCache c').1 = (work.onCache c).1 ∧
      AfterFailure left (work.onCache c).2 (work.onCache c').2 := by
  induction work generalizing c c' with
  | done result => exact ⟨rfl, h⟩
  | ask request onward ih =>
      obtain ⟨hanswer, hleft⟩ := h.answer request
      rw [Resolving.onCache, Resolving.onCache]
      generalize request.answer c = outcome at hanswer hleft ⊢
      generalize request.answer c' = outcome' at hanswer hleft ⊢
      obtain ⟨cause | d, left⟩ := outcome
      · obtain ⟨answer, left'⟩ := outcome'
        cases hanswer
        exact ⟨rfl, hleft⟩
      · obtain ⟨answer, left'⟩ := outcome'
        cases hanswer
        exact ih d hleft

/-! Whatever the order in which one of the caches is gone through, there is one
for the other in which the filled slots come alike. -/

theorem reorder (h : AfterFailure left c c') {slots slots' : List Slot}
    (hslots : slots.Perm c.slots) (hslots' : slots'.Perm c'.slots) :
    AfterFailure left { c with slots := slots }
      { c' with slots := slots' } := by
  have hkeys : (Cache.keys { c with slots := slots }).Perm c.keys :=
    hslots.map Slot.key
  refine ⟨hkeys.nodup_iff.mpr h.nodup, ?_, h.hits, h.misses⟩
  rw [spare_congr hkeys]
  exact hslots'.trans (h.slots.trans (hslots.symm.append_right _))

theorem exists_order_after (h : AfterFailure left c c') {slots : List Slot}
    (hslots : slots.Perm c.slots) :
    ∃ slots' : List Slot, slots'.Perm c'.slots ∧ Slot.filled slots' =
      Slot.filled slots := by
  refine ⟨slots ++ c.spare left, (hslots.append_right _).trans h.slots.symm, ?_⟩
  rw [Slot.filled_append, filled_spare, List.append_nil]

theorem exists_order_before (h : AfterFailure left c c') {slots' : List Slot}
    (hslots' : slots'.Perm c'.slots) :
    ∃ slots : List Slot, slots.Perm c.slots ∧ Slot.filled slots' =
      Slot.filled slots := by
  have hperm := hslots'.trans h.slots
  unfold spare at hperm
  split at hperm
  · split at hperm
    · exact ⟨slots', List.append_nil c.slots ▸ hperm, rfl⟩
    · next key _ =>
        have hmem : ⟨key, none⟩ ∈ slots' := hperm.mem_iff.mpr (by simp)
        obtain ⟨front, back, rfl⟩ := List.append_of_mem hmem
        refine ⟨front ++ back, ?_, ?_⟩
        · have hcons :=
            List.perm_middle.symm.trans (hperm.trans List.perm_append_comm)
          exact hcons.cons_inv
        · rw [Slot.filled_append, Slot.filled_append, Slot.filled_cons_empty]
  · exact ⟨slots', List.append_nil c.slots ▸ hperm, rfl⟩

end AfterFailure

end Cache

namespace Resolution

/-! ## Decisions -/

section Decisions

variable {c : Config} {decision : Decision} {slots slots' : List Slot}
  {result : Except ResolutionError (List ResolvedDependency)}

theorem Decides.vacant_eq (h : Decides c decision slots slots' result) :
    Slot.vacant slots' = Slot.vacant slots := by
  induction h with
  | nil => rfl
  | @pass slot _ _ _ _ _ ih =>
      unfold Slot.vacant at ih ⊢
      rw [List.filter_cons, List.filter_cons, ih]
  | replace _ _ _ ih => exact ih
  | stop => rfl

theorem decideSlots_filled (c : Config) (decision : Decision) (files : FileTree)
    (slots : List Slot) :
    decideSlots c decision files (Slot.filled slots) =
      ((decideSlots c decision files slots).1,
        Slot.filled (decideSlots c decision files slots).2.1,
        (decideSlots c decision files slots).2.2) := by
  induction slots generalizing files with
  | nil => rfl
  | cons slot rest ih =>
      obtain ⟨key, _ | d⟩ := slot
      · exact ih files
      · rw [Slot.filled_cons_some, decideSlots, decideSlots]
        cases key.id == decision.dependencyId with
        | false =>
            dsimp only
            rw [ih]
            rfl
        | true =>
            dsimp only
            rcases decideEntry c decision files d with ⟨files', cause | d'⟩
            · rfl
            · dsimp only
              rw [ih]
              rfl

theorem decideSlots_afterFailure {left : Option RequestKey}
    {cache cache' : Cache} (h : cache.AfterFailure left cache')
    (hfilled : Slot.filled cache'.slots = Slot.filled cache.slots)
    (c : Config) (decision : Decision) (files : FileTree) :
    ∃ files' result slots slots',
      decideSlots c decision files cache.slots = (files', slots, result) ∧
        decideSlots c decision files cache'.slots = (files', slots', result) ∧
        Cache.AfterFailure left { cache with slots := slots }
          { cache' with slots := slots' } := by
  have hdecides := decides_decideSlots c decision files cache.slots
  have hdecides' := decides_decideSlots c decision files cache'.slots
  have hsame : decideSlots c decision files (Slot.filled cache.slots) = _ :=
    decideSlots_filled c decision files cache.slots
  rw [← hfilled, decideSlots_filled] at hsame
  generalize decideSlots c decision files cache.slots = outcome
    at hdecides hsame ⊢
  generalize decideSlots c decision files cache'.slots = outcome'
    at hdecides' hsame ⊢
  obtain ⟨files', slots, result⟩ := outcome
  obtain ⟨files'', slots', result'⟩ := outcome'
  obtain ⟨rfl, hslots, rfl⟩ :
      files'' = files' ∧ Slot.filled slots' = Slot.filled slots ∧
      result' = result := by simpa using hsame
  refine ⟨files'', result', slots, slots', rfl, rfl, ?_⟩
  have hkeys : Cache.keys { cache with slots := slots } = cache.keys :=
    hdecides.keys_eq
  have hvacant :
      (Slot.vacant slots').Perm (Slot.vacant slots ++ cache.spare left) := by
    rw [hdecides'.vacant_eq, hdecides.vacant_eq, ← cache.vacant_spare left]
    exact (h.slots.filter _).trans (.of_eq (List.filter_append _ _))
  refine ⟨hkeys.symm ▸ h.nodup, ?_, h.hits, h.misses⟩
  rw [Cache.spare_congr (.of_eq hkeys)]
  calc slots'
    _ |>.Perm (Slot.filled slots' ++ Slot.vacant slots') :=
        (Slot.perm_filled_append_vacant slots').symm
    _ |>.Perm (Slot.filled slots ++ (Slot.vacant slots ++ cache.spare left)) :=
        hslots ▸ hvacant.append_left _
    _ |>.Perm (slots ++ cache.spare left) :=
        List.append_assoc _ _ _ ▸
          (Slot.perm_filled_append_vacant slots).append_right _

end Decisions

/-! ## Operations -/

/-- What is still there of a failed request after the operation. -/
def Operation.leaves (left : Option RequestKey) : Operation → Option RequestKey
  | clear => none
  | _ => left

/-- The answer to an operation, which leaves the cache, as it would be with the
failed request. -/
def Operation.retold (left : Option RequestKey) (cache : Cache) :
    (o : Operation) → o.Answer → o.Answer
  | stats, _ => (cache.withFailure left).toJson
  | _, answer => answer

theorem run_afterFailure {left : Option RequestKey} {cache cache' : Cache}
    (h : cache.AfterFailure left cache')
    (hfilled : Slot.filled cache'.slots = Slot.filled cache.slots)
    (c : Config) (files : FileTree) (o : Operation) :
    ∃ answer files' after after',
      o.run c ⟨files, cache⟩ = (answer, ⟨files', after⟩) ∧
        o.run c ⟨files, cache'⟩ =
          (o.retold (o.leaves left) after answer, ⟨files', after'⟩) ∧
        after.AfterFailure (o.leaves left) after' := by
  cases o with
  | inquire inquiry =>
      obtain ⟨hanswer, hleft⟩ := h.onCache (inquiry.work c files)
      exact ⟨_, files, _, _, rfl, congrArg (·, _) hanswer, hleft⟩
  | analyze now g =>
      obtain ⟨hanswer, hleft⟩ := h.onCache (Analysis.analyze c files now g)
      exact ⟨_, files, _, _, rfl, congrArg (·, _) hanswer, hleft⟩
  | decide decision =>
      obtain ⟨files', result, slots, slots', hslots, hslots', hleft⟩ :=
        decideSlots_afterFailure h hfilled c decision files
      simp only [Operation.run, carryOut, hslots, hslots']
      rcases result with cause | (_ | ⟨d, ds⟩)
      · exact ⟨_, files', _, _, rfl, rfl, hleft⟩
      · exact ⟨_, files', _, _, rfl, rfl, hleft⟩
      · exact ⟨_, files', _, _, rfl, rfl, hleft⟩
  | cached id =>
      refine ⟨_, files, _, _, rfl, congrArg (·, _) ?_, h⟩
      dsimp only [Operation.retold]
      rw [Cache.entriesOf_eq_filled, Cache.entriesOf_eq_filled, hfilled]
  | stats =>
      refine ⟨_, files, _, _, rfl, congrArg (·, _) ?_, h⟩
      dsimp only [Operation.retold, Operation.leaves]
      rw [Cache.toJson, Cache.toJson, h.slots.length_eq, h.hits, h.misses]
      rfl
  | clear =>
      exact ⟨_, files, _, _, rfl, rfl, List.nodup_nil, .refl [], h.hits,
        h.misses⟩
  | validate now g => exact ⟨_, files, _, _, rfl, rfl, h⟩
  | locate d => exact ⟨_, files, _, _, rfl, rfl, h⟩
  | pathFromBase d => exact ⟨_, files, _, _, rfl, rfl, h⟩

/-! ## Orders -/

/-- The operation, with the slots visited in some order. -/
def Operation.Happens (c : Config) (o : Operation) (r : Registry)
    (answer : o.Answer) (after : Registry) : Prop :=
  ∃ slots : List Slot, slots.Perm r.cache.slots ∧
    o.run c ⟨r.files, { r.cache with slots := slots }⟩ = (answer, after)

section Orders

variable {left : Option RequestKey} {cache cache' : Cache} {c : Config}
  {files : FileTree} {o : Operation}

theorem happens_after (h : cache.AfterFailure left cache') {answer : o.Answer}
    {after : Registry} (ho : o.Happens c ⟨files, cache⟩ answer after) :
    ∃ after' : Registry,
      o.Happens c ⟨files, cache'⟩ (o.retold (o.leaves left) after.cache answer)
      after' ∧ after'.files = after.files ∧
        after.cache.AfterFailure (o.leaves left) after'.cache := by
  obtain ⟨slots, hslots, hrun⟩ := ho
  obtain ⟨slots', hslots', hfilled⟩ := h.exists_order_after hslots
  obtain ⟨answer, files', left, left', hfirst, hsecond, hleft⟩ :=
    run_afterFailure (h.reorder hslots hslots') hfilled c files o
  cases hrun.symm.trans hfirst
  exact ⟨⟨files', left'⟩, ⟨slots', hslots', hsecond⟩, rfl, hleft⟩

theorem happens_before (h : cache.AfterFailure left cache') {answer' : o.Answer}
    {after' : Registry} (ho : o.Happens c ⟨files, cache'⟩ answer' after') :
    ∃ (answer : o.Answer) (after : Registry),
      o.Happens c ⟨files, cache⟩ answer after ∧
        answer' = o.retold (o.leaves left) after.cache answer ∧
          after'.files = after.files ∧
          after.cache.AfterFailure (o.leaves left) after'.cache := by
  obtain ⟨slots', hslots', hrun⟩ := ho
  obtain ⟨slots, hslots, hfilled⟩ := h.exists_order_before hslots'
  obtain ⟨answer, files', left, left', hfirst, hsecond, hleft⟩ :=
    run_afterFailure (h.reorder hslots hslots') hfilled c files o
  cases hrun.symm.trans hsecond
  exact ⟨answer, ⟨files', left⟩, ⟨slots, hslots, hfirst⟩, rfl, rfl, hleft⟩

end Orders

/-! ## Runs -/

structure Turn where
  meanwhile : FileTree → FileTree
  operation : Operation

structure Reply where
  operation : Operation
  answer : operation.Answer
  left : Cache

inductive Runs (c : Config) : Registry → List Turn → List Reply → Prop
  | done (r : Registry) : Runs c r [] []
  | turn {r after : Registry} {t : Turn} {turns : List Turn}
      {replies : List Reply} {answer : t.operation.Answer}
      (hfirst : t.operation.Happens c ⟨t.meanwhile r.files,
        r.cache⟩ answer after)
      (hrest : Runs c after turns replies) :
      Runs c r (t :: turns) (⟨t.operation, answer, after.cache⟩ :: replies)

def Reply.said (reply : Reply) : (o : Operation) × o.Answer :=
  ⟨reply.operation, reply.answer⟩

/-- What is said in a run, as it would be with the failed request. -/
def retold (left : Option RequestKey) :
    List Reply → List ((o : Operation) × o.Answer)
  | [] => []
  | ⟨o, answer, cache⟩ :: rest =>
      ⟨o, o.retold (o.leaves left) cache answer⟩ :: retold (o.leaves left) rest

section Runs

variable {left : Option RequestKey} {c : Config} {r r' : Registry}
  {turns : List Turn}

theorem runs_after {replies : List Reply} (hruns : Runs c r turns replies)
    (hfiles : r'.files = r.files) (h : r.cache.AfterFailure left r'.cache) :
    ∃ replies', Runs c r' turns replies' ∧ replies'.map Reply.said =
      retold left replies := by
  induction hruns generalizing r' left with
  | done r => exact ⟨[], .done r', rfl⟩
  | @turn r after t turns replies answer hfirst _ ih =>
      obtain ⟨after', hfirst', hfiles', hleft⟩ := happens_after h hfirst
      obtain ⟨replies', hrest', hsaid⟩ := ih hfiles' hleft
      rw [← hfiles] at hfirst'
      exact ⟨_, .turn hfirst' hrest', congrArg (_ :: ·) hsaid⟩

theorem runs_before {replies' : List Reply} (hruns : Runs c r' turns replies')
    (hfiles : r'.files = r.files) (h : r.cache.AfterFailure left r'.cache) :
    ∃ replies, Runs c r turns replies ∧ replies'.map Reply.said =
      retold left replies := by
  induction hruns generalizing r left with
  | done r' => exact ⟨[], .done r, rfl⟩
  | @turn r' after' t turns replies' answer' hfirst' _ ih =>
      rw [hfiles] at hfirst'
      obtain ⟨answer, after, hfirst, rfl, hfiles', hleft⟩ :=
        happens_before h hfirst'
      obtain ⟨replies, hrest, hsaid⟩ := ih hfiles' hleft
      exact ⟨_, .turn hfirst hrest, congrArg (_ :: ·) hsaid⟩

end Runs

/-- All that is left of a failed request is one miss more, and until its key is
asked for again or all is forgotten, one slot more where the key had none.  All
later answers but the counts are as they could have been without it, and all of
these are still possible. -/
theorem failed_request_counted (c : Config) {r : Registry}
    (hreached : r.cache.Reached c) (kind : DependencyKind) (name : String)
    (path : Option String) {cause : ResolutionError}
    (hfails : ((Operation.inquire (.dependency kind name path)).run c r).1 =
      .error cause) :
    let key : RequestKey := ⟨Reference.key kind name, path⟩
    let after := ((Operation.inquire (.dependency kind name path)).run c r).2
    after.files = r.files ∧ after.cache.hits = r.cache.hits ∧
      after.cache.misses = r.cache.misses + 1 ∧
      after.cache.slots.length = r.cache.slots.length +
        (if key ∈ r.cache.keys then 0 else 1) ∧
      (∀ id, after.cache.entriesOf id = r.cache.entriesOf id) ∧
      ∀ (turns : List Turn) (said : List ((o : Operation) × o.Answer)),
        (∃ replies, Runs c after turns replies ∧
          replies.map Reply.said = said) ↔
          ∃ replies, Runs c r turns replies ∧
          retold (some key) replies = said := by
  intro key after
  have hrun : (Operation.inquire (.dependency kind name path)).run c r =
      Operation.answerWith r (resolve c r.files kind name path) := rfl
  rw [Operation.answerWith, onCache_resolve] at hrun
  have hleft : after = ⟨r.files, r.cache.withFailure (some key)⟩ := by
    rw [hrun] at hfails
    rw [show after = _ from congrArg Prod.snd hrun]
    exact congrArg (Registry.mk r.files) (Cache.fetch_of_error hfails)
  rw [hleft]
  have hfiles : (⟨r.files, r.cache.withFailure (some key)⟩ : Registry).files =
      r.files := rfl
  have hmarked :
      r.cache.AfterFailure (some key) (r.cache.withFailure (some key)) :=
    ⟨hreached.nodup_keys, .refl _, rfl, rfl⟩
  refine ⟨rfl, rfl, rfl, ?_, r.cache.entriesOf_withFailure _, fun turns said =>
    ⟨?_, ?_⟩⟩
  · rw [Cache.withFailure, List.length_append, Cache.spare]
    split <;> rfl
  · rintro ⟨replies', hruns, rfl⟩
    obtain ⟨replies, hruns', hsaid⟩ := runs_before hruns hfiles hmarked
    exact ⟨replies, hruns', hsaid.symm⟩
  · rintro ⟨replies, hruns, rfl⟩
    exact runs_after hruns hfiles hmarked

/-! ## A path through a file -/

def besideFile : Registry :=
  ⟨FileTree.empty.plant ["work", "a"] (.newFile (.text "")), .empty⟩

theorem reached_besideFile : besideFile.cache.Reached .standard := .refl

theorem resolve_besideFile :
    ((resolve .standard besideFile.files .agent
      "helper" (some "a/helper.md")).onCache besideFile.cache).1 =
      .error (.access "./a/helper.md" .notADirectory) := by
  decide +kernel

/-- One slot is left, and is no longer counted when all is forgotten; the miss
still is. -/
theorem failed_request_counted_besideFile :
    let after :=
      ((Operation.inquire (.dependency .agent "helper"
        (some "a/helper.md"))).run .standard besideFile).2
    after.cache.slots.length = 1 ∧
      ∃ replies,
        Runs .standard after [⟨id, .stats⟩, ⟨id, .clear⟩, ⟨id, .stats⟩]
        replies ∧ replies.map Reply.said =
          [⟨.stats, .obj [("entries", .int 1), ("hits", .int 0),
            ("misses", .int 1)]⟩, ⟨.clear, ()⟩,
            ⟨.stats, .obj [("entries", .int 0), ("hits", .int 0),
              ("misses", .int 1)]⟩] := by
  intro after
  obtain ⟨-, -, -, hlength, -, hsaid⟩ :=
    failed_request_counted .standard reached_besideFile .agent "helper"
    (some "a/helper.md") resolve_besideFile
  let replies : List Reply :=
    [⟨.stats, besideFile.cache.toJson, besideFile.cache⟩,
      ⟨.clear, (), besideFile.cache⟩,
      ⟨.stats, besideFile.cache.toJson, besideFile.cache⟩]
  refine ⟨hlength, (hsaid _ _).mpr ⟨replies, ?_, rfl⟩⟩
  have happens (o : Operation) (answer : o.Answer)
      (hrun : o.run .standard besideFile = (answer, besideFile)) :
      o.Happens .standard besideFile answer besideFile := ⟨[], .refl [], hrun⟩
  exact .turn (happens .stats _ rfl) (.turn (happens .clear () rfl)
    (.turn (happens .stats _ rfl) (.done _)))

theorem failed_request_not_traceless :
    ¬ ∀ (c : Config) (r : Registry), r.cache.Reached c →
      ∀ (kind : DependencyKind) (name : String) (path : Option String)
        (cause : ResolutionError),
        ((Operation.inquire (.dependency kind name path)).run c r).1 =
        .error cause →
        ((Operation.inquire (.dependency kind name path)).run c
          r).2.cache.slots.length =
          r.cache.slots.length := by
  intro h
  have hlength := h .standard besideFile reached_besideFile .agent "helper"
    (some "a/helper.md") _ resolve_besideFile
  exact absurd hlength (by decide +kernel)

end Resolution

end Workflows
