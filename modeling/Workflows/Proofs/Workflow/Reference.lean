import Workflows.Proofs.Document.Items
import Workflows.Workflow.Reference

/-!
# References and their keys

A reference is split at its first colon, so a name may have colons of its own.
A key is read back as the kind and the name that it was made of if the name is
meaningful, and reading yields no other names: what is read from a reference,
however that is spelled, has a key that is read as the same.
-/

namespace Workflows.Reference

open Document Text

variable {kind kind' : DependencyKind} {name name' s : String}

/-! ## The first colon -/

section

variable {text before after : List Char}

theorem splitColon?_append (h : ':' ∉ before) (after : List Char) :
    splitColon? (before ++ ':' :: after) = some (before, after) := by
  induction before with
  | nil => rfl
  | cons c before ih =>
      obtain ⟨hc, hbefore⟩ : ':' ≠ c ∧ ':' ∉ before := by simpa using h
      simp [splitColon?, hc.symm, ih hbefore]

theorem eq_append_of_splitColon? (h : splitColon? text = some (before, after)) :
    text = before ++ ':' :: after ∧ ':' ∉ before := by
  induction text generalizing before with
  | nil => cases h
  | cons c text ih =>
      by_cases hc : c = ':'
      · rw [hc, splitColon?] at h
        cases h
        simp [hc]
      · simp only [splitColon?, Option.map_eq_some_iff, Prod.mk.injEq] at h
        obtain ⟨⟨before, after⟩, hsplit, rfl, rfl⟩ := h
        obtain ⟨rfl, hbefore⟩ := ih hsplit
        simp [Ne.symm hc, hbefore]

end

/-! ## References that are read -/

theorem parse?_eq_some_iff : parse? s = some (kind, name) ↔
    ∃ before after, s.toList = before ++ ':' :: after ∧ ':' ∉ before ∧
      DependencyKind.read (String.ofList before) = .ok kind ∧
      trim after = name.toList ∧ name ≠ "" := by
  constructor
  · intro h
    simp only [parse?, Option.bind_eq_bind, Option.bind_eq_some_iff] at h
    obtain ⟨⟨before, after⟩, hsplit, h⟩ := h
    obtain ⟨hs, hbefore⟩ := eq_append_of_splitColon? hsplit
    obtain ⟨hne, h⟩ := Option.ite_none_left_eq_some.mp h
    split at h
    · next found hread =>
        cases h
        exact ⟨before, after, hs, hbefore, hread, by simp, by simpa using hne⟩
    · cases h
  · rintro ⟨before, after, hs, hbefore, hread, hname, hne⟩
    have hsplit := splitColon?_append hbefore after
    rw [← hs] at hsplit
    simp only [parse?, Option.bind_eq_bind, hsplit, Option.bind_some,
      hname, hread, String.ofList_toList]
    simp [hne]

theorem isMeaningful_of_parse? (h : parse? s = some (kind, name)) :
    IsMeaningful name.toList := by
  obtain ⟨before, after, -, -, -, hname, hne⟩ := parse?_eq_some_iff.mp h
  rw [← hname]
  exact isMeaningful_trim (by simpa [hname] using hne)

/-! ## Keys -/

theorem toList_key (kind : DependencyKind) (name : String) :
    (key kind name).toList = kind.name.toList ++ ':' :: name.toList := by
  simp [key]

theorem colon_notMem_name (kind : DependencyKind) : ':' ∉ kind.name.toList := by
  cases kind <;> decide

theorem read_name (kind : DependencyKind) :
    DependencyKind.read kind.name = .ok kind := by
  cases kind <;> decide

theorem parse?_key_iff :
    parse? (key kind name) = some (kind, name) ↔ IsMeaningful name.toList := by
  refine ⟨isMeaningful_of_parse?, fun h => parse?_eq_some_iff.mpr ?_⟩
  refine ⟨kind.name.toList, name.toList, toList_key kind name,
    colon_notMem_name kind, ?_, h.trim_eq, by simpa using h.ne_nil⟩
  rw [String.ofList_toList, read_name]

theorem key_inj :
    key kind name = key kind' name' ↔ kind = kind' ∧ name = name' := by
  constructor
  · intro h
    have hsplit (kind : DependencyKind) (name : String) :=
      splitColon?_append (colon_notMem_name kind) name.toList
    have hparts := congrArg (fun s => splitColon? s.toList) h
    simp only [toList_key, hsplit, Option.some.injEq, Prod.mk.injEq,
      String.toList_inj] at hparts
    obtain ⟨hkind, hname⟩ := hparts
    refine ⟨?_, hname⟩
    cases kind <;> cases kind' <;> simp_all [DependencyKind.name]
  · rintro ⟨rfl, rfl⟩
    rfl

/-- Keys are read back exactly where the name is meaningful, every reference
that is read has such a name, and different kinds or names have different
keys. -/
theorem keys_read_back :
    (∀ kind name, parse? (key kind name) = some (kind, name) ↔
      IsMeaningful name.toList) ∧
    (∀ s kind name, parse? s = some (kind, name) →
      IsMeaningful name.toList ∧ parse? (key kind name) = some (kind, name)) ∧
    ∀ kind kind' name name', key kind name = key kind' name' →
    kind = kind' ∧ name = name' := by
  refine ⟨fun _ _ => parse?_key_iff, fun s kind name h => ?_, fun _ _ _ _ =>
    key_inj.mp⟩
  have hname := isMeaningful_of_parse? h
  exact ⟨hname, parse?_key_iff.mpr hname⟩

/-- The kind in the plural and in capitals, and blanks around a name with a
colon; the key of an agent of that name is another one. -/
theorem keys_read_back_spelled :
    parse? " Workflows\t:\u3000review: all\n" =
      some (.workflow, "review: all") ∧
    IsMeaningful "review: all".toList ∧
    parse? (key .workflow "review: all") = some (.workflow, "review: all") ∧
    key .workflow "review: all" ≠ key .agent "review: all" := by
  have hread : parse? " Workflows\t:\u3000review: all\n" = some (.workflow,
      "review: all") := by
    decide
  obtain ⟨hname, hkey⟩ := keys_read_back.2.1 _ _ _ hread
  refine ⟨hread, hname, hkey, fun h => ?_⟩
  have hkind := (keys_read_back.2.2 _ _ _ _ h).1
  cases hkind

end Workflows.Reference
