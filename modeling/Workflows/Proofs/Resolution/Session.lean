import Workflows.Analysis.Report
import Workflows.Resolution.Decision
import Workflows.Resolution.Workflow

/-!
# Sessions with one cache

A session is a row of calls, each on the files as they are at that time; a
decision visits the slots in an order of its own.  What happens to the cache is
read off the calls: the requests with their answers, the decisions with what
they leave behind, and the times at which all was forgotten.
-/

namespace Workflows

/-- What happens to a cache.  `left` are the slots of the decision's id when it
is over. -/
inductive Event where
  | asked (request : Request)
      (answer : Except ResolutionError ResolvedDependency)
  | decided (decision : Decision) (left : List Slot)
      (result : Except ResolutionError (List ResolvedDependency))
  | cleared

def Resolving.events {α : Type} : Resolving α → Cache → List Event
  | done _, _ => []
  | ask request onward, cache =>
      match request.answer cache with
      | (.ok d, cache) => .asked request (.ok d) :: (onward d).events cache
      | (.error cause, _) => [.asked request (.error cause)]

namespace Resolution

inductive Inquiry where
  | dependency (kind : DependencyKind) (name : String) (path : Option String)
  | dependencies (ds : List Dependency)
  | workflow (w : Workflow)
  | cycles (w : Workflow)
  | paths (g : Graph)

namespace Inquiry

def Answer : Inquiry → Type
  | dependency _ _ _ => ResolvedDependency
  | dependencies _ => List ResolvedDependency
  | workflow _ => ResolutionResult
  | cycles _ => List (List String)
  | paths _ => Graph

def work (c : Config) (files : FileTree) : (i : Inquiry) → Resolving i.Answer
  | dependency kind name path => resolve c files kind name path
  | dependencies ds => resolveEach c files ds
  | workflow w => resolveWorkflow c files w
  | cycles w => workflowCycles c files w
  | paths g => Analysis.fillPaths c files g

end Inquiry

/-- An order in which a decision visits the slots. -/
structure VisitOrder where
  arrange : List Slot → List Slot
  perm : ∀ slots, (arrange slots).Perm slots

def VisitOrder.asRequested : VisitOrder := ⟨id, .refl⟩

def VisitOrder.arranged (order : VisitOrder) (cache : Cache) : Cache :=
  { cache with slots := order.arrange cache.slots }

inductive Call where
  | inquire (inquiry : Inquiry)
  | decide (decision : Decision) (order : VisitOrder)
  | clear

namespace Call

def after (c : Config) (files : FileTree) (cache : Cache) : Call → Cache
  | inquire inquiry => ((inquiry.work c files).onCache cache).2
  | decide decision order =>
      (carryOut c decision ⟨files, order.arranged cache⟩).1.cache
  | clear => cache.clear

def events (c : Config) (files : FileTree) (cache : Cache) : Call → List Event
  | inquire inquiry => (inquiry.work c files).events cache
  | decide decision order =>
      let (registry, result) :=
        carryOut c decision ⟨files, order.arranged cache⟩
      [.decided decision
        (registry.cache.slots.filter fun s => s.key.id == decision.dependencyId)
        result]
  | clear => [.cleared]

end Call

abbrev Session := List (FileTree × Call)

namespace Session

def cacheFrom (c : Config) (cache : Cache) : Session → Cache
  | [] => cache
  | (files, call) :: rest => cacheFrom c (call.after c files cache) rest

def historyFrom (c : Config) (cache : Cache) : Session → List Event
  | [] => []
  | (files, call) :: rest =>
      call.events c files cache ++ historyFrom c (call.after c files cache) rest

def cache (c : Config) (s : Session) : Cache := s.cacheFrom c .empty

def history (c : Config) (s : Session) : List Event := s.historyFrom c .empty

end Session

end Resolution

end Workflows
