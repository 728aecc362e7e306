import Workflows.Files.Placeholder
import Workflows.Resolution.Resolver

/-!
Carrying out decisions about dependencies.  A decision is applied to each entry
that the cache holds for the id, in turn; the cache is right about them from
then on.
-/

namespace Workflows

structure Registry where
  files : FileTree
  cache : Cache
  deriving Repr

namespace Resolution

def placeholderOf (d : ResolvedDependency) : Placeholder :=
  match d.kind with
  | .resource => .directory
  | kind => .document d.name kind.name

def withPlaceholder (d : ResolvedDependency) (newVersion : Option String) :
    ResolvedDependency :=
  { d with
    resolved := true
    presence := ⟨true, true, newVersion <|> d.presence.version⟩ }.withoutError

def withReplacement (d : ResolvedDependency) (path : String)
    (newVersion : Option String) (report : PathReport) : ResolvedDependency :=
  let moved := { d with
    physicalPath := path
    resolved := report.isUsable
    presence :=
      ⟨report.exist, report.accessible, newVersion <|> d.presence.version⟩ }
  match report.error with
  | some error =>
      if report.exist then moved.fail ResolvedDependency.notAccessibleCode error
      else moved.fail ResolvedDependency.notFoundCode error
  | none => moved.withoutError

def decideEntry (c : Config) (decision : Decision) (files : FileTree)
    (d : ResolvedDependency) :
    FileTree × Except ResolutionError ResolvedDependency :=
  match decision.action with
  | .useExisting => (files, .ok d)
  | .createPlaceholder =>
      let (files, result) := files.putPlaceholder (locate c d) (placeholderOf d)
      (files, result.map fun _ => withPlaceholder d decision.newVersion)
  | .skip =>
      (files, .ok (d.fail ResolvedDependency.skippedCode
        ("Dependency '" ++ d.id ++ "' was skipped")))
  | .replace =>
      match decision.replacementPath with
      | none => (files, .error (.missingReplacementPath decision.dependencyId))
      | some path =>
          (files, (files.inspect (c.underBase path)).map
            (withReplacement d path decision.newVersion))

/-- Carries out a decision on the slots of its id; a failure leaves the slots
after it alone. -/
def decideSlots (c : Config) (decision : Decision) :
    FileTree → List Slot →
      FileTree × List Slot × Except ResolutionError (List ResolvedDependency)
  | files, [] => (files, [], .ok [])
  | files, slot :: rest =>
      match slot.entry, slot.key.id == decision.dependencyId with
      | some d, true =>
          match decideEntry c decision files d with
          | (files, .error cause) => (files, slot :: rest, .error cause)
          | (files, .ok updated) =>
              let (files, rest, result) := decideSlots c decision files rest
              (files, { slot with entry := some updated } :: rest,
                result.map (updated :: ·))
      | _, _ =>
          let (files, rest, result) := decideSlots c decision files rest
          (files, slot :: rest, result)

/-- The entries of the id after the decision; an id without entries is not
known. -/
def carryOut (c : Config) (decision : Decision) (r : Registry) :
    Registry × Except ResolutionError (List ResolvedDependency) :=
  let (files, slots, result) := decideSlots c decision r.files r.cache.slots
  let registry : Registry := ⟨files, { r.cache with slots := slots }⟩
  match result with
  | .ok [] => (registry, .error (.unknownDependency decision.dependencyId))
  | result => (registry, result)

end Resolution

end Workflows
