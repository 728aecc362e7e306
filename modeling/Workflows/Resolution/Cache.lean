import Workflows.Failure
import Workflows.Resolution.Basic

/-!
The resolution cache.  A request for a key takes what is stored under it, or
resolves it and stores the result.  A request that fails leaves its slot empty,
so that the next one tries again.
-/

namespace Workflows

/-- The id of a dependency and the explicit path that it is asked for with. -/
structure RequestKey where
  id : String
  path : Option String
  deriving DecidableEq, Repr

structure Slot where
  key : RequestKey
  entry : Option ResolvedDependency
  deriving DecidableEq, Repr

/-- Slots in the order of their first request, each key once, and the requests
counted by whether they found something stored. -/
structure Cache where
  slots : List Slot
  hits : Nat
  misses : Nat
  deriving DecidableEq, Repr

namespace Cache

def empty : Cache := ⟨[], 0, 0⟩

def slot? (c : Cache) (key : RequestKey) : Option Slot :=
  c.slots.find? fun s => s.key == key

def stored? (c : Cache) (key : RequestKey) : Option ResolvedDependency :=
  (c.slot? key).bind Slot.entry

def reserve (c : Cache) (key : RequestKey) : Cache :=
  if (c.slot? key).isSome then c
  else { c with slots := c.slots ++ [⟨key, none⟩] }

def store (c : Cache) (key : RequestKey) (d : ResolvedDependency) : Cache :=
  { c with
    slots := c.slots.map fun s => if s.key = key then ⟨key, some d⟩ else s }

/-- Answers a request; `resolve` is asked only where nothing is stored. -/
def fetch (c : Cache) (key : RequestKey)
    (resolve : Unit → Except ResolutionError ResolvedDependency) :
    Except ResolutionError ResolvedDependency × Cache :=
  match c.stored? key with
  | some d => (.ok d, { c with hits := c.hits + 1 })
  | none =>
      let reserved := { c.reserve key with misses := c.misses + 1 }
      match resolve () with
      | .ok d => (.ok d, reserved.store key d)
      | .error cause => (.error cause, reserved)

/-- Forgets what is stored; the counts of requests go on. -/
def clear (c : Cache) : Cache := { c with slots := [] }

def entriesOf (c : Cache) (id : String) : List ResolvedDependency :=
  (c.slots.filter fun s => s.key.id == id).filterMap Slot.entry

def toJson (c : Cache) : Json :=
  .obj [("entries", .int c.slots.length), ("hits", .int c.hits),
    ("misses", .int c.misses)]

end Cache

end Workflows
