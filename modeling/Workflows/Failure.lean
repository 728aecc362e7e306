/-!
Causes of failure and their wording.  A failure belongs to a phase and has a
code; its description shows both before the message.
-/

namespace Workflows

structure UnknownName where
  subject : String
  name : String
  deriving DecidableEq, Repr

def UnknownName.message (e : UnknownName) : String :=
  "unknown " ++ e.subject ++ " '" ++ e.name ++ "'"

inductive DocumentError where
  | unterminatedFrontMatter
  | frontMatter
  | structured
  | notAMapping
  deriving DecidableEq, Repr

namespace DocumentError

def code : DocumentError → String
  | unterminatedFrontMatter => "P001"
  | frontMatter => "P002"
  | structured => "P003"
  | notAMapping => "P004"

def message : DocumentError → String
  | unterminatedFrontMatter =>
      "front-matter block opened with '---' is never closed"
  | frontMatter => "invalid front-matter"
  | structured => "invalid structured workflow document"
  | notAMapping =>
      "workflow document must be a key/value mapping at the top level"

end DocumentError

inductive AccessError where
  | notFound
  | permissionDenied
  | alreadyExists
  | notADirectory
  | isADirectory
  | nameTooLong
  | nulCharacter
  | notText
  deriving DecidableEq, Repr

def AccessError.message : AccessError → String
  | notFound => "No such file or directory (os error 2)"
  | permissionDenied => "Permission denied (os error 13)"
  | alreadyExists => "File exists (os error 17)"
  | notADirectory => "Not a directory (os error 20)"
  | isADirectory => "Is a directory (os error 21)"
  | nameTooLong => "File name too long (os error 36)"
  | nulCharacter => "file name contained an unexpected NUL byte"
  | notText => "stream did not contain valid UTF-8"

inductive ResolutionError where
  | access (path : String) (cause : AccessError)
  | unknownDependency (id : String)
  | missingReplacementPath (id : String)
  deriving DecidableEq, Repr

namespace ResolutionError

def code : ResolutionError → String
  | access _ _ => "R001"
  | unknownDependency _ => "R002"
  | missingReplacementPath _ => "R003"

def message : ResolutionError → String
  | access path cause => "I/O error at '" ++ path ++ "': " ++ cause.message
  | unknownDependency id => "no cached resolution for dependency '" ++ id ++ "'"
  | missingReplacementPath id =>
      "resolution 'replace' for '" ++ id ++ "' requires a replacement path"

end ResolutionError

inductive Phase where
  | parse
  | resolve
  deriving DecidableEq, Repr

def Phase.name : Phase → String
  | parse => "Parse"
  | resolve => "Resolve"

inductive Failure where
  | document (cause : DocumentError)
  | resolution (cause : ResolutionError)
  deriving DecidableEq, Repr

namespace Failure

def phase : Failure → Phase
  | document _ => .parse
  | resolution _ => .resolve

def code : Failure → String
  | document cause => cause.code
  | resolution cause => cause.code

def message : Failure → String
  | document cause => cause.message
  | resolution cause => cause.message

def describe (e : Failure) : String :=
  "[" ++ e.phase.name ++ ":" ++ e.code ++ "] " ++ e.message

end Failure

theorem exists_of_bind_ok {ε α β : Type} {x : Except ε α}
    {next : α → Except ε β} {value : β} (h : x >>= next = .ok value) :
    ∃ middle, x = .ok middle ∧ next middle = .ok value := by
  cases x with
  | error cause => cases h
  | ok middle => exact ⟨middle, rfl, h⟩

end Workflows
