import Workflows.Proofs.Document.Placeholder
import Workflows.Proofs.Resolution.Footprint

/-!
# The documents that decisions create

Whatever document a decision adds to the files is the placeholder of an entry.
It is read back as a workflow of the entry's name exactly where that name is
legible.
-/

namespace Workflows

open Document

theorem FileTree.read_of_locate {t : FileTree} {path text : String}
    {place : Place} (h : t.locate path = .ok (place, .newFile (.text text))) :
    t.read path = .ok text := by
  have hread : (FileEntry.newFile (.text text)).mayRead = true := by
    simp [FileEntry.newFile, FileEntry.mayRead, FileEntry.mode]
  rw [read, h]
  change (if !(FileEntry.newFile (.text text)).mayRead then _ else _) = _
  rw [hread]
  rfl

namespace Resolution

/-- What a decision adds to the files is a directory, or the document of an
entry of its id.  For a name that starts as a plain scalar does, the document
has that name exactly where it is legible. -/
theorem created_document_read_back (c : Config) (decision : Decision)
    (r : Registry) {place : Place} {e : FileEntry}
    (hnone : r.files.find? place = none)
    (hadded : (carryOut c decision r).1.files.find? place = some e) :
    e = .newDirectory ∨
      ∃ d ∈ r.cache.entriesOf decision.dependencyId, ∃ text,
        d.kind ≠ .resource ∧ e = .newFile (.text text) ∧
        (carryOut c decision r).1.files.read (locate c d) = .ok text ∧
        (IsPlainName d.name.toList →
          (ReadsAs d.name text ↔ isLegible d.name = true)) := by
  rcases (spares_decide c decision r).added place e hnone hadded with
    hdirectory | ⟨_, d, hdecision, hd, hkind, rfl, hlocate⟩
  · exact .inl hdirectory
  · cases hdecision
    exact .inr ⟨d, hd, _, hkind, rfl, FileTree.read_of_locate hlocate,
      fun hname => readsAs_documentText_iff hname d.kind⟩

/-! ## A legible name and another one -/

def asked (kind : DependencyKind) (name : String) : Registry :=
  ⟨.empty,
    Session.cache .standard [(.empty, .inquire (.dependency kind name none))]⟩

def creating (kind : DependencyKind) (name : String) : Decision :=
  ⟨Reference.key kind name, .createPlaceholder, none, none⟩

def answered (kind : DependencyKind) (name : String) : Registry :=
  (carryOut .standard (creating kind name) (asked kind name)).1

theorem name_eq_of_mem {ds : List ResolvedDependency} {name : String}
    (h : ds.map ResolvedDependency.name = [name]) {d : ResolvedDependency}
    (hd : d ∈ ds) :
    d.name = name :=
  List.mem_singleton.mp (h ▸ List.mem_map_of_mem hd)

theorem created_document_read_back_reviewer :
    ∃ text, (answered .agent "code-reviewer").files.find?
        ["work", "extensions", "agents", "code-reviewer.md"] = some
        (.newFile (.text text)) ∧
      ReadsAs "code-reviewer" text := by
  obtain ⟨text, hadded⟩ : ∃ text, (answered .agent "code-reviewer").files.find?
      ["work", "extensions", "agents", "code-reviewer.md"] =
      some (.newFile (.text text)) :=
    ⟨Placeholder.documentText "code-reviewer" "agent", by decide +kernel⟩
  have hnames : ((asked .agent "code-reviewer").cache.entriesOf
      (creating .agent "code-reviewer").dependencyId).map
      ResolvedDependency.name =
        ["code-reviewer"] := by
    decide +kernel
  refine ⟨text, hadded, ?_⟩
  unfold answered at hadded
  obtain hdirectory | ⟨d, hd, text', -, htext, -, hreads⟩ :=
    created_document_read_back .standard _ _ (by decide +kernel) hadded
  · cases hdirectory
  · have hplain : IsPlainName "code-reviewer".toList :=
      isPlainName_of_isWordChar (c := 'c') rfl (by decide)
        (by simp [Yaml.isWordChar])
    have hlegible : isLegible "code-reviewer" = true :=
      isLegible_of_isWordChar (c := 'c') rfl (by decide)
        (by simp [Yaml.isWordChar]) (by decide)
    rw [name_eq_of_mem hnames hd] at hreads
    cases htext
    exact (hreads hplain).mpr hlegible

/-- A colon before a blank cannot stand in front matter. -/
theorem created_document_not_read_back :
    ¬ ∀ (c : Config) (decision : Decision) (r : Registry) (place : Place)
      (text : String), r.cache.Reached c →
      decision.action = .createPlaceholder →
      r.files.find? place = none →
      (carryOut c decision r).1.files.find? place = some
        (.newFile (.text text)) →
      ∃ d ∈ r.cache.entriesOf decision.dependencyId,
        d.kind ≠ .resource ∧ (IsName d.name.toList → ReadsAs d.name text) := by
  intro h
  have hreached : (asked .workflow "review: all").cache.Reached .standard :=
    Session.steps_cacheFrom .standard _ .empty
  obtain ⟨text, htext, hadded⟩ : ∃ text,
      text = Placeholder.documentText "review: all"
      DependencyKind.workflow.name ∧
      (answered .workflow "review: all").files.find?
        ["work", "extensions", "workflows", "review: all", "README.md"] =
          some (.newFile (.text text)) :=
    ⟨_, rfl, by decide +kernel⟩
  have hnames : ((asked .workflow "review: all").cache.entriesOf
      (creating .workflow "review: all").dependencyId).map
      ResolvedDependency.name =
        ["review: all"] := by
    decide +kernel
  have hplain : IsPlainName "review: all".toList :=
    ⟨⟨by decide, isBreak_of_all (by decide), by simp [Text.isBlank],
      by simp [Text.isBlank]⟩, by decide, by decide⟩
  unfold answered at hadded
  obtain ⟨d, hd, -, hreads⟩ :=
    h .standard _ _ _ text hreached rfl (by decide +kernel) hadded
  rw [name_eq_of_mem hnames hd, htext] at hreads
  have hlegible : isLegible "review: all" = true :=
    (readsAs_documentText_iff hplain .workflow).mp (hreads hplain.toIsName)
  exact absurd hlegible (by decide +kernel)

end Resolution

end Workflows
