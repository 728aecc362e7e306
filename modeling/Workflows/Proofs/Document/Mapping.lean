import Workflows.Document.Format

/-!
# The mapping of a document

In both formats a workflow is made of one mapping: the front matter of a
Markdown document, with the prose behind it, or all of a structured one.
-/

namespace Workflows.Document

variable {text : String} {format : Option DocumentFormat} {w : Workflow}

def structuredMapping (text : List Char) :
    Except DocumentError (List (String × Json)) :=
  match Yaml.read? text with
  | none => .error .structured
  | some (.obj fields) => .ok fields
  | some _ => .error .notAMapping

def mapping (text : String) (format : Option DocumentFormat) :
    Except DocumentError (List (String × Json)) :=
  match format.getD (formatOf text.toList) with
  | .markdown => split text.toList >>= fun parts => frontMapping parts.front
  | .structured => structuredMapping text.toList

theorem exists_of_readMarkdown {text : List Char}
    (h : readMarkdown text = .ok w) :
    ∃ fields prose, (split text >>= fun parts => frontMapping parts.front) =
      .ok fields ∧
      w = workflowOf fields prose := by
  obtain ⟨parts, hparts, h⟩ := exists_of_bind_ok h
  obtain ⟨fields, hfields, h⟩ := exists_of_bind_ok h
  rw [hparts]
  cases h
  exact ⟨fields, some parts.body, hfields, rfl⟩

theorem exists_of_readStructured {text : List Char}
    (h : readStructured text = .ok w) :
    ∃ fields prose, structuredMapping text = .ok fields ∧
    w = workflowOf fields prose := by
  unfold readStructured at h
  unfold structuredMapping
  cases hread : Yaml.read? text with
  | none =>
      rw [hread] at h
      cases h
  | some value =>
      rw [hread] at h
      cases value with
      | obj fields =>
          cases h
          exact ⟨fields, none, rfl, rfl⟩
      | _ => cases h

theorem exists_mapping_of_parse (h : parse text format = .ok w) :
    ∃ fields prose, mapping text format = .ok fields ∧
    w = workflowOf fields prose := by
  unfold parse at h
  unfold mapping
  cases hformat : format.getD (formatOf text.toList) with
  | markdown =>
      rw [hformat] at h
      exact exists_of_readMarkdown h
  | structured =>
      rw [hformat] at h
      exact exists_of_readStructured h

theorem exists_of_map_parse {β : Type} {f : Workflow → β} {seen : β}
    (h : (parse text format).map f = .ok seen) :
    ∃ w, parse text format = .ok w ∧ f w = seen := by
  cases hparse : parse text format with
  | error e =>
      rw [hparse] at h
      cases h
  | ok w =>
      rw [hparse] at h
      exact ⟨w, rfl, Except.ok.inj h⟩

end Workflows.Document
