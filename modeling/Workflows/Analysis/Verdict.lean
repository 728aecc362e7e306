import Workflows.Graph.Codec

/-!
The verdict of a validation: its errors and warnings, and the status that
follows from them. Remarks that are neither are left out.
-/

namespace Workflows

structure Verdict where
  valid : Bool
  status : ValidationStatus
  errors : List Issue
  warnings : List Issue
  deriving DecidableEq, Repr

namespace Verdict

def ofIssues (issues : List Issue) : Verdict :=
  let errors := issues.filter fun i => i.severity == .error
  let warnings := issues.filter fun i => i.severity == .warning
  { valid := errors.isEmpty
    status :=
      if !errors.isEmpty then .invalid else if !warnings.isEmpty then .warning
      else .valid
    errors := errors
    warnings := warnings }

def issues (v : Verdict) : List Issue := v.errors ++ v.warnings

def toJson (v : Verdict) : Json :=
  .obj [("valid", .bool v.valid), ("status", v.status.toJson),
    ("errors", issuesToJson v.errors), ("warnings", issuesToJson v.warnings)]

end Verdict

end Workflows
