import Workflows.Proofs.Files.Additions
import Workflows.Proofs.Resolution.FailedDecision

/-!
# What calls leave in the file tree

An analyzer and its resolver look at files, and write only to carry out the
decision to create placeholders.  Even that takes nothing away and changes
nothing: it adds missing directories, and a document where an entry of the
decision's id is located and nothing was.
-/

namespace Workflows.Resolution

/-! ## Operations -/

inductive Operation where
  | inquire (inquiry : Inquiry)
  | validate (now : String) (g : Graph)
  | analyze (now : String) (g : Graph)
  | decide (decision : Decision)
  | cached (id : String)
  | locate (d : ResolvedDependency)
  | pathFromBase (d : ResolvedDependency)
  | stats
  | clear

namespace Operation

def Answer : Operation → Type
  | inquire inquiry => Except ResolutionError inquiry.Answer
  | validate _ _ => Graph × Verdict
  | analyze _ _ => Except ResolutionError (Graph × AnalysisReport)
  | decide _ => Except ResolutionError (List ResolvedDependency)
  | cached _ => Option ResolvedDependency
  | locate _ | pathFromBase _ => String
  | stats => Json
  | clear => Unit

def answerWith {α : Type} (r : Registry) (work : Resolving α) :
    Except ResolutionError α × Registry :=
  let (answer, cache) := work.onCache r.cache
  (answer, { r with cache := cache })

def run (c : Config) (r : Registry) : (o : Operation) → o.Answer × Registry
  | inquire inquiry => answerWith r (inquiry.work c r.files)
  | validate now g => (Analysis.validate c r.files now g, r)
  | analyze now g => answerWith r (Analysis.analyze c r.files now g)
  | decide decision =>
      let (registry, answer) := carryOut c decision r
      (answer, registry)
  | cached id => ((r.cache.entriesOf id).head?, r)
  | locate d => (Resolution.locate c d, r)
  | pathFromBase d => (Resolution.pathFromBase c d, r)
  | stats => (r.cache.toJson, r)
  | clear => ((), { r with cache := r.cache.clear })

def createsPlaceholder : Operation → Bool
  | decide decision => decision.action == .createPlaceholder
  | _ => false

end Operation

/-! ## One decision -/

variable {c : Config} {decision : Decision}

theorem adds_decideEntry (c : Config) (decision : Decision) (files : FileTree)
    (d : ResolvedDependency) :
    files.Adds [(locate c d, placeholderOf d)]
      (decideEntry c decision files d).1 := by
  by_cases haction : decision.action = .createPlaceholder
  · have hput := files.adds_putPlaceholder (locate c d) (placeholderOf d)
    unfold decideEntry
    rw [haction]
    exact hput
  · rw [files_decideEntry haction]
    exact .refl _ files

theorem adds_decideSlots (c : Config) (decision : Decision) (files : FileTree)
    (slots : List Slot) :
    files.Adds (placeholders c decision slots)
      (decideSlots c decision files slots).1 := by
  induction slots generalizing files with
  | nil => exact .refl _ files
  | cons slot rest ih =>
      rw [decideSlots]
      split
      · next d hentry hid =>
          rw [placeholders_cons_of_entry hentry hid]
          have hfirst := (adds_decideEntry c decision files d).mono
            (List.cons_subset_cons _
              (List.nil_subset (placeholders c decision rest)))
          generalize decideEntry c decision files d = outcome at hfirst
          obtain ⟨files', cause | updated⟩ := outcome
          · exact hfirst
          · exact hfirst.trans ((ih files').mono (List.subset_cons_self _ _))
      · next hpass =>
          rw [placeholders_cons_of_pass (passes_of_not_held hpass)]
          exact ih files

theorem files_decideSlots (haction : decision.action ≠ .createPlaceholder)
    (files : FileTree) (slots : List Slot) :
    (decideSlots c decision files slots).1 = files := by
  induction slots with
  | nil => rfl
  | cons slot rest ih =>
      rw [decideSlots]
      split
      · next d _ _ =>
          have hfirst : (decideEntry c decision files d).1 = files :=
            files_decideEntry haction
          generalize decideEntry c decision files d = outcome at hfirst
          obtain ⟨files', cause | updated⟩ := outcome
          · exact hfirst
          · obtain rfl : files' = files := hfirst
            exact ih
      · exact ih

theorem exists_of_mem_placeholders {r : Registry} {path name kind : String}
    (h : (path, .document name kind) ∈ placeholders c decision r.cache.slots) :
    ∃ d ∈ r.cache.entriesOf decision.dependencyId,
      d.kind ≠ .resource ∧ path = locate c d ∧ name = d.name ∧
      kind = d.kind.name := by
  obtain ⟨d, hd, heq⟩ := List.mem_map.mp h
  refine ⟨d, hd, ?_⟩
  unfold placeholderOf at heq
  cases hkind : d.kind with
  | resource =>
      rw [hkind] at heq
      cases heq
  | _ =>
      rw [hkind] at heq
      cases heq
      exact ⟨by decide, rfl, rfl, rfl⟩

/-! ## Sessions -/

/-- What an operation may leave in the files: directories, and documents of a
cached entry. -/
structure Spares (c : Config) (o : Operation) (r r' : Registry) : Prop where
  grows : r.files.Grows r'.files
  unchanged : o.createsPlaceholder = false → r'.files = r.files
  added : ∀ place e, r.files.find? place = none →
    r'.files.find? place = some e →
    e = .newDirectory ∨
      ∃ decision d, o = .decide decision ∧
      d ∈ r.cache.entriesOf decision.dependencyId ∧
        d.kind ≠ .resource ∧
        e = .newFile (.text (Placeholder.documentText d.name d.kind.name)) ∧
        r'.files.locate (locate c d) = .ok (place, e)

theorem spares_of_files_eq {o : Operation} {r r' : Registry}
    (h : r'.files = r.files) :
    Spares c o r r' where
  grows := h ▸ .refl r.files
  unchanged := fun _ => h
  added := by
    intro place e hnone hfound
    rw [h, hnone] at hfound
    cases hfound

theorem spares_decide (c : Config) (decision : Decision) (r : Registry) :
    Spares c (.decide decision) r (carryOut c decision r).1 := by
  have hadds := adds_decideSlots c decision r.files r.cache.slots
  rw [← files_carryOut] at hadds
  refine ⟨hadds.toGrows, fun haction => ?_, fun place e hnone hfound => ?_⟩
  · rw [files_carryOut]
    exact files_decideSlots
      (by simpa [Operation.createsPlaceholder] using haction) _ _
  · cases hadds.added place e hnone hfound with
    | directory => exact .inl rfl
    | document hwritten hlocate =>
        obtain ⟨d, hd, hkind, rfl, rfl, rfl⟩ :=
          exists_of_mem_placeholders hwritten
        exact .inr ⟨decision, d, rfl, hd, hkind, rfl, hlocate⟩

theorem spares_run (c : Config) (r : Registry) (o : Operation) :
    Spares c o r (o.run c r).2 := by
  cases o with
  | decide decision => exact spares_decide c decision r
  | _ => exact spares_of_files_eq rfl

/-- An operation of a session, between the registry before it and the one after
it. -/
structure Visit where
  before : Registry
  operation : Operation
  after : Registry

def visits (c : Config) (r : Registry) : List Operation → List Visit
  | [] => []
  | o :: rest => ⟨r, o, (o.run c r).2⟩ :: visits c (o.run c r).2 rest

def registryAfter (c : Config) (r : Registry) : List Operation → Registry
  | [] => r
  | o :: rest => registryAfter c (o.run c r).2 rest

/-- Whatever a session asks for, each operation of it spares the files that it
finds, and so does the session as a whole. -/
theorem session_spares_files (c : Config) (start : Registry)
    (session : List Operation) :
    start.files.Grows (registryAfter c start session).files ∧
      ∀ visit ∈ visits c start session,
        Spares c visit.operation visit.before visit.after := by
  induction session generalizing start with
  | nil => exact ⟨.refl start.files, fun visit h => nomatch h⟩
  | cons o rest ih =>
      obtain ⟨hgrows, hvisits⟩ := ih (o.run c start).2
      have hfirst := spares_run c start o
      refine ⟨hfirst.grows.trans hgrows, fun visit hvisit => ?_⟩
      rcases List.mem_cons.mp hvisit with rfl | hlater
      · exact hfirst
      · exact hvisits visit hlater

example :
    let session : List Operation :=
      [.inquire (.dependency .agent "helper" (some "agents/helper.md")),
        .decide ⟨"agent:helper", .createPlaceholder, none, none⟩]
    (registryAfter .standard ⟨.empty, .empty⟩ session).files.read
    "agents/helper.md" = .ok (Placeholder.documentText "helper" "agent") := by
  decide +kernel

end Workflows.Resolution
