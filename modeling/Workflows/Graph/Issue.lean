/-!
Findings about a graph.  A finding does not stop anything; it has a code, a
message, a severity and perhaps the path or id that it is about.
-/

namespace Workflows

inductive Severity where
  | error
  | warning
  | info
  deriving DecidableEq, Repr

namespace Severity

def name : Severity → String
  | error => "error"
  | warning => "warning"
  | info => "info"

def all : List Severity := [error, warning, info]

end Severity

structure Issue where
  code : String
  message : String
  severity : Severity
  path : Option String
  deriving DecidableEq, Repr

namespace Issue

def error (code message : String) : Issue := ⟨code, message, .error, none⟩

def warning (code message : String) : Issue := ⟨code, message, .warning, none⟩

def info (code message : String) : Issue := ⟨code, message, .info, none⟩

def located (i : Issue) (path : String) : Issue := { i with path := some path }

def isError (i : Issue) : Bool := i.severity == .error

def shown (i : Issue) : String :=
  let text := "[" ++ i.code ++ "] " ++ i.message
  match i.path with
  | some path => text ++ " (at '" ++ path ++ "')"
  | none => text

end Issue

inductive ValidationStatus where
  | valid
  | invalid
  | warning
  deriving DecidableEq, Repr

namespace ValidationStatus

def name : ValidationStatus → String
  | valid => "valid"
  | invalid => "invalid"
  | warning => "warning"

def all : List ValidationStatus := [valid, invalid, warning]

end ValidationStatus

end Workflows
