import Workflows.Resolution.Resolver

/-!
Requests that are under way together.  A request gets the slot of its key, waits
for the lock of that slot, and then takes what is stored there, or looks the
dependency up and stores it.  Each of these is a step of its own, and the steps
of several requests come in any order.
-/

namespace Workflows

/-- How far a request has come.  The lock of its slot is held from `holding` to
`served`. -/
inductive Stage where
  | asked
  | queued
  | holding
  | missed
  | found (d : ResolvedDependency)
  | served (result : Except ResolutionError ResolvedDependency)
  | answered (result : Except ResolutionError ResolvedDependency)
  deriving Repr

/-- A cache that several requests work on.  `locked` are the keys of the slots
whose lock is held, `lookedUp` those of the look-ups that were made, the latest
first. -/
structure SharedCache where
  cache : Cache
  locked : List RequestKey
  lookedUp : List RequestKey
  deriving DecidableEq, Repr

namespace SharedCache

def countHit (s : SharedCache) : SharedCache :=
  { s with cache := { s.cache with hits := s.cache.hits + 1 } }

def countMiss (s : SharedCache) : SharedCache :=
  { s with cache := { s.cache with misses := s.cache.misses + 1 } }

end SharedCache

structure Flight where
  request : Request
  stage : Stage
  deriving Repr

namespace Flight

def key (f : Flight) : RequestKey := f.request.key

/-- The next step of a request; none while the lock is held by another, and none
at the end.  The lock is given up after a failure too, and nothing is stored
then. -/
def advance? (s : SharedCache) (f : Flight) : Option (SharedCache × Stage) :=
  match f.stage with
  | .asked => some ({ s with cache := s.cache.reserve f.key }, .queued)
  | .queued =>
      if f.key ∈ s.locked then none
      else some ({ s with locked := f.key :: s.locked }, .holding)
  | .holding =>
      match s.cache.stored? f.key with
      | some d => some (s.countHit, .served (.ok d))
      | none => some (s.countMiss, .missed)
  | .missed =>
      let s := { s with lookedUp := f.key :: s.lookedUp }
      match f.request.lookUp with
      | .ok d => some (s, .found d)
      | .error cause => some (s, .served (.error cause))
  | .found d =>
      some ({ s with cache := s.cache.store f.key d }, .served (.ok d))
  | .served result =>
      some ({ s with locked := s.locked.erase f.key }, .answered result)
  | .answered _ => none

end Flight

structure Traffic where
  shared : SharedCache
  flights : List Flight
  deriving Repr

namespace Traffic

def start (requests : List Request) : Traffic :=
  ⟨⟨.empty, [], []⟩, requests.map fun r => ⟨r, .asked⟩⟩

def advance? (t : Traffic) (i : Nat) : Option Traffic := do
  let flight ← t.flights[i]?
  let (shared, stage) ← flight.advance? t.shared
  return ⟨shared, t.flights.set i { flight with stage := stage }⟩

/-- Steps in an order, which gives the positions of the requests that take
them. -/
def run? (t : Traffic) : (order : List Nat) → Option Traffic
  | [] => some t
  | i :: rest => do (← t.advance? i).run? rest

end Traffic

end Workflows
