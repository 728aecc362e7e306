import Mathlib.Data.List.Basic
import Workflows.Proofs.Resolution.Cache
import Workflows.Proofs.Resolution.Decision
import Workflows.Proofs.Resolution.Session

/-!
# A cache is what its history left

The history of a session says what is stored under each key: the first answer
since all was last forgotten, or what a later decision left there.  Every
request is answered from that, and looked up only where nothing is stored.
-/

namespace Workflows

open Resolution

namespace Event

/-- What an event leaves stored under a key where `stored` was before. -/
def leaves (key : RequestKey) (stored : Option ResolvedDependency) :
    Event → Option ResolvedDependency
  | asked request answer =>
      if request.key = key then stored <|> answer.toOption else stored
  | decided _ left _ =>
      match left.find? fun s => s.key == key with
      | some slot => slot.entry
      | none => stored
  | cleared => none

end Event

def lastStored? (history : List Event) (key : RequestKey) :
    Option ResolvedDependency :=
  history.foldl (Event.leaves key) none

@[simp] theorem lastStored?_nil (key : RequestKey) :
    lastStored? [] key = none := rfl

@[simp] theorem lastStored?_concat (history : List Event) (e : Event)
    (key : RequestKey) :
    lastStored? (history ++ [e]) key =
      e.leaves key (lastStored? history key) := by
  simp [lastStored?]

namespace Event

def succeeded : Event → Bool
  | decided _ _ (.error _) => false
  | _ => true

def isRequest : Event → Bool
  | asked _ _ => true
  | _ => false

def isMiss (before : List Event) : Event → Bool
  | asked request _ => (lastStored? before request.key).isNone
  | _ => false

/-- An event as a keyed store has it, after those before it.  A decision changes
only what is stored under its id, and where it succeeds all of that; it answers
with what it leaves. -/
def Lawful (c : Config) (before : List Event) : Event → Prop
  | asked request answer =>
      answer = match lastStored? before request.key with
        | some d => .ok d
        | none => request.lookUp
  | decided decision left result =>
      let after := lastStored? (before ++ [decided decision left result])
      (∀ key, after key = lastStored? before key ∨
        key.id = decision.dependencyId ∧ ∃ d d',
          lastStored? before key = some d ∧
            after key = some d' ∧ Decided c decision d d') ∧
      ∀ ds, result = .ok ds → ds = left.filterMap Slot.entry ∧
        ∀ key d, key.id = decision.dependencyId →
        lastStored? before key = some d →
          ∃ d', after key = some d' ∧ Decided c decision d d'
  | cleared => True

end Event

def missCount (history : List Event) : Nat :=
  (List.range history.length).countP fun i =>
    (history[i]?).any (Event.isMiss (history.take i))

theorem missCount_concat (history : List Event) (e : Event) :
    missCount (history ++ [e]) =
      missCount history + if e.isMiss history then 1 else 0 := by
  have hearlier : (List.range history.length).countP (fun i =>
      ((history ++ [e])[i]?).any (Event.isMiss ((history ++ [e]).take i))) =
      missCount history := by
    refine List.countP_congr fun i hi => ?_
    have hlt := List.mem_range.mp hi
    rw [List.getElem?_append_left hlt,
      List.take_append_of_le_length (Nat.le_of_lt hlt)]
  rw [missCount, List.length_append, List.length_singleton, List.range_succ,
    List.countP_append, hearlier]
  simp [List.countP_singleton]

theorem leaves_decided {c : Config} {decision : Decision}
    {slots slots' : List Slot}
    {result answer : Except ResolutionError (List ResolvedDependency)}
    (h : Decides c decision slots slots' result) (key : RequestKey) :
    Event.leaves key (Slot.entryIn slots key) (.decided decision
        (slots'.filter fun s => s.key.id == decision.dependencyId) answer) =
      Slot.entryIn slots' key := by
  rw [Event.leaves, List.find?_filter]
  by_cases hid : key.id = decision.dependencyId
  · -- the slots of the id are all there, so the key finds its slot among them
    have hsame :
        (fun s : Slot => decide ((s.key.id == decision.dependencyId) = true ∧
        (s.key == key) = true)) = fun s => s.key == key := by
      funext s
      by_cases hkey : s.key = key <;> simp [hkey, hid]
    rw [hsame]
    cases hfind : slots'.find? fun s => s.key == key with
    | some slot => simp [Slot.entryIn, hfind]
    | none =>
        have hnone : Slot.entryIn slots' key = none := by
          simp [Slot.entryIn, hfind]
        rcases h.entryIn key with heq | ⟨-, d, d', -, hsome, -⟩
        · exact heq.symm
        · rw [hnone] at hsome
          cases hsome
  · have hnone : slots'.find? (fun s : Slot =>
        decide ((s.key.id == decision.dependencyId) = true ∧
          (s.key == key) = true)) =
        none := by
      refine List.find?_eq_none.mpr fun s _ hs => hid ?_
      simp only [beq_iff_eq, decide_eq_true_eq] at hs
      rw [← hs.2, hs.1]
    rw [hnone]
    exact ((h.entryIn key).resolve_right fun hother => hid hother.1).symm

/-! ## Histories that keep the law -/

def LawfulHistory (c : Config) (history : List Event) : Prop :=
  ∀ before e after, history = before ++ e :: after → e.Lawful c before

theorem LawfulHistory.nil (c : Config) : LawfulHistory c [] := by
  intro before e after h
  simp at h

theorem LawfulHistory.concat {c : Config} {history : List Event} {e : Event}
    (h : LawfulHistory c history) (he : e.Lawful c history) :
    LawfulHistory c (history ++ [e]) := by
  intro before last after hsplit
  -- the event in question is the new one or stands among those before
  rcases List.eq_nil_or_concat after with rfl | ⟨rest, final, rfl⟩
  · obtain ⟨rfl, hlast⟩ := List.append_inj' hsplit rfl
    cases hlast
    exact he
  · rw [List.concat_eq_append, ← List.cons_append, ← List.append_assoc]
      at hsplit
    exact h before last rest (List.append_inj' hsplit rfl).1

structure Reflects (c : Config) (cache : Cache) (history : List Event) :
    Prop where
  nodup : cache.keys.Nodup
  lawful : LawfulHistory c history
  stored : ∀ key, cache.stored? key = lastStored? history key
  requests : cache.hits + cache.misses = history.countP Event.isRequest
  misses : cache.misses = missCount history

namespace Reflects

variable {c : Config} {cache : Cache} {history : List Event}

theorem empty (c : Config) : Reflects c .empty [] where
  nodup := List.nodup_nil
  lawful := .nil c
  stored := fun _ => rfl
  requests := rfl
  misses := rfl

theorem asked (h : Reflects c cache history) (request : Request) :
    Reflects c (request.answer cache).2
      (history ++ [.asked request (request.answer cache).1]) where
  nodup := Cache.nodup_keys_fetch _ h.nodup request.key
  lawful := by
    refine h.lawful.concat ?_
    rw [Event.Lawful, ← h.stored]
    exact Cache.answer_fetch _ cache request.key
  stored := fun key => by
    have hanswer :=
      Cache.answer_fetch (fun _ => request.lookUp) cache request.key
    rw [lastStored?_concat, Event.leaves, ← h.stored, Request.answer,
      Cache.stored?_fetch]
    by_cases heq : request.key = key
    · rw [if_pos heq, if_pos heq, hanswer, ← heq]
      cases cache.stored? request.key <;> rfl
    · rw [if_neg heq, if_neg heq]
  requests := by
    rw [Request.answer, Cache.hits_add_misses_fetch,
      h.requests, List.countP_append]
    rfl
  misses := by
    rw [Request.answer, Cache.misses_fetch, h.misses, missCount_concat,
      Event.isMiss, h.stored]

theorem decided (h : Reflects c cache history) (files : FileTree)
    (decision : Decision) (order : VisitOrder) :
    Reflects c ((Call.decide decision order).after c files cache)
      (history ++ (Call.decide decision order).events c files cache) := by
  have hbefore (key : RequestKey) :
      lastStored? history key = Slot.entryIn (order.arranged cache).slots key :=
    (h.stored key).symm.trans
      (Cache.stored?_of_perm h.nodup (order.perm _) key).symm
  have hnodup : (order.arranged cache).keys.Nodup :=
    ((order.perm cache.slots).map Slot.key).nodup_iff.mpr h.nodup
  obtain ⟨result, hdecides, hhits, hmisses, hok⟩ :=
    carryOut_decides c decision ⟨files, order.arranged cache⟩
  rw [Call.after, Call.events]
  generalize carryOut c decision ⟨files, order.arranged cache⟩ = outcome
    at hdecides hhits hmisses hok ⊢
  obtain ⟨⟨files', cache'⟩, answer⟩ := outcome
  have hafter (key : RequestKey) : lastStored? (history ++ [.decided decision
      (cache'.slots.filter fun s => s.key.id == decision.dependencyId) answer])
      key = Slot.entryIn cache'.slots key := by
    rw [lastStored?_concat, hbefore]
    exact leaves_decided hdecides key
  constructor
  · have hkeys : cache'.keys = (order.arranged cache).keys := hdecides.keys_eq
    rwa [hkeys]
  · refine h.lawful.concat ⟨fun key => ?_, fun ds hds => ?_⟩
    · rw [hafter, hbefore]
      exact hdecides.entryIn key
    · obtain rfl := hok ds hds
      refine ⟨hdecides.eq_of_ok, fun key d hid hd => ?_⟩
      rw [hbefore] at hd
      rw [hafter]
      exact hdecides.exists_of_ok hid hd
  · intro key
    exact (hafter key).symm
  · have hsum : cache'.hits + cache'.misses = cache.hits + cache.misses :=
      congrArg₂ (· + ·) hhits hmisses
    simpa [Event.isRequest, ← h.requests] using hsum
  · rw [missCount_concat, ← h.misses]
    exact hmisses

theorem cleared (h : Reflects c cache history) :
    Reflects c cache.clear (history ++ [.cleared]) where
  nodup := List.nodup_nil
  lawful := h.lawful.concat trivial
  stored := fun key => by
    rw [lastStored?_concat]
    rfl
  requests := by
    rw [List.countP_append]
    exact h.requests
  misses := by
    rw [missCount_concat]
    exact h.misses

theorem onCache {α : Type} (work : Resolving α) (h : Reflects c cache history) :
    Reflects c (work.onCache cache).2 (history ++ work.events cache) := by
  induction work generalizing cache history with
  | done result => simpa [Resolving.onCache, Resolving.events] using h
  | ask request onward ih =>
      have hasked := h.asked request
      rw [Resolving.onCache, Resolving.events]
      generalize request.answer cache = outcome at hasked ⊢
      obtain ⟨cause | d, cache'⟩ := outcome
      · exact hasked
      · rw [List.append_cons]
        exact ih d hasked

theorem call (h : Reflects c cache history) (files : FileTree) (call : Call) :
    Reflects c (call.after c files cache)
      (history ++ call.events c files cache) := by
  cases call with
  | inquire inquiry => exact h.onCache (inquiry.work c files)
  | decide decision order => exact h.decided files decision order
  | clear => exact h.cleared

theorem session (h : Reflects c cache history) (s : Session) :
    Reflects c (s.cacheFrom c cache) (history ++ s.historyFrom c cache) := by
  induction s generalizing cache history with
  | nil => simpa [Session.cacheFrom, Session.historyFrom] using h
  | cons first rest ih =>
      obtain ⟨files, call⟩ := first
      rw [Session.cacheFrom, Session.historyFrom, ← List.append_assoc]
      exact ih (h.call files call)

end Reflects

namespace Resolution

theorem reflects_history (c : Config) (s : Session) :
    Reflects c (s.cache c) (s.history c) := by
  have h := (Reflects.empty c).session s
  rwa [List.nil_append] at h

/-- Through every session the cache is a keyed store: a request is answered with
what was last stored under its key, by its first answer or by a decision that
got as far as its slot, and is looked up only where nothing is stored.  The
counts are those of the requests and of the ones that found nothing.  Each
decision of a session visits the slots in an order of its own. -/
theorem session_refines_store (c : Config) (s : Session) :
    LawfulHistory c (s.history c) ∧
    (∀ key, (s.cache c).stored? key = lastStored? (s.history c) key) ∧
    (∀ files kind name path d,
      lastStored? (s.history c) ⟨Reference.key kind name, path⟩ = some d →
        (resolve c files kind name path).onCache (s.cache c) =
          (.ok d, { s.cache c with hits := (s.cache c).hits + 1 })) ∧
    (s.cache c).hits + (s.cache c).misses =
      (s.history c).countP Event.isRequest ∧
    (s.cache c).misses = missCount (s.history c) := by
  have h := reflects_history c s
  refine ⟨h.lawful, h.stored, fun files kind name path d hd => ?_, h.requests,
    h.misses⟩
  have hanswer : (⟨c, files, kind, name, path⟩ : Request).answer (s.cache c) =
      (.ok d, { s.cache c with hits := (s.cache c).hits + 1 }) :=
    Cache.fetch_of_stored _ ((h.stored _).trans hd)
  rw [resolve, Resolving.onCache, hanswer]
  rfl

/-- A decision about several entries that fails keeps what it did to those
before the failure. -/
theorem failed_decision_answers :
    ¬ ∀ (c : Config) (s : Session) files kind name path,
      ((resolve c files kind name path).onCache (s.cache c)).1 =
        match lastStored? ((s.history c).filter Event.succeeded)
            ⟨Reference.key kind name, path⟩ with
        | some d => .ok d
        | none => lookUp c files kind name path := by
  intro h
  have hlast := h .standard
    [(.empty, .inquire (.dependency .agent "h" (some "a.md"))),
      (.empty, .inquire (.dependency .agent "h" (some "b/h.md"))),
      (FileTree.empty.put ["work", "b"] (.newFile (.text "")),
        .decide ⟨"agent:h", .createPlaceholder, none, none⟩ .asRequested)]
    .empty .agent "h" (some "a.md")
  revert hlast
  decide +kernel

end Resolution

end Workflows
