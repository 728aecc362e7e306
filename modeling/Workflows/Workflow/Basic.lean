import Workflows.Json.Basic

/-!
Workflows: named steps in order, and the agents, workflows and resources that
they depend on.
-/

namespace Workflows

inductive DependencyKind where
  | agent
  | workflow
  | resource
  deriving DecidableEq, Repr

def DependencyKind.name : DependencyKind → String
  | agent => "agent"
  | workflow => "workflow"
  | resource => "resource"

/-- A declared dependency.  A path, if given, says where it is, in place of the
conventions. -/
structure Dependency where
  kind : DependencyKind
  name : String
  path : Option String
  required : Bool
  deriving DecidableEq, Repr

namespace Dependency

def ofName (kind : DependencyKind) (name : String) : Dependency :=
  ⟨kind, name, none, true⟩

def withPath (d : Dependency) (path : String) : Dependency :=
  { d with path := some path }

end Dependency

inductive Successors where
  | one (target : String)
  | many (targets : List String)
  deriving DecidableEq, Repr

namespace Successors

def targets : Successors → List String
  | one target => [target]
  | many targets => targets

def map (f : String → String) : Successors → Successors
  | one target => one (f target)
  | many targets => many (targets.map f)

def isBranching (s : Successors) : Bool := 1 < s.targets.length

@[simp] theorem targets_map (f : String → String) (s : Successors) :
    (s.map f).targets = s.targets.map f := by
  cases s <;> rfl

end Successors

/-- A step.  `conditions` is whatever the author wrote there, an explicit null
included; the fields without a meaning of their own are in `metadata`. -/
structure Step where
  id : String
  name : String
  description : Option String
  kind : String
  action : Option String
  agent : Option String
  workflow : Option String
  resources : Option (List String)
  conditions : Option Json
  next : Option Successors
  metadata : List (String × Json)
  deriving Repr

namespace Step

def ofName (id name : String) : Step :=
  ⟨id, name, none, "action", none, none, none, none, none, none, []⟩

def isCondition (s : Step) : Bool :=
  s.kind == "condition" || s.kind == "decision"

def references (s : Step) (d : Dependency) : Bool :=
  match d.kind with
  | .agent => s.agent == some d.name
  | .workflow => s.workflow == some d.name
  | .resource => s.resources.any (·.contains d.name)

def targets (s : Step) : List String :=
  match s.next with
  | some next => next.targets
  | none => []

def isBranching (s : Step) : Bool := s.next.any Successors.isBranching

end Step

/-- A workflow.  Dependencies stand in the order of their declaration, repeated
ones included. -/
structure Workflow where
  name : String
  description : Option String
  version : Option String
  author : Option String
  steps : List Step
  dependencies : List Dependency
  metadata : List (String × Json)
  deriving Repr

def Workflow.step? (w : Workflow) (id : String) : Option Step :=
  w.steps.find? fun s => s.id == id

end Workflows
