import Workflows.Json.Decode
import Workflows.Proofs.Document.Mapping
import Workflows.Proofs.Number.Digits
import Workflows.Proofs.Workflow.Reference

/-!
# Names of dependencies

The dependencies of a document come from references, which are trimmed when they
are read, and from lists of names, which are kept as they stand.  The key of a
dependency is read back as its kind and name unless a text that stands in one of
those lists is blank or has blanks around it.
-/

namespace Workflows.Document

open Json Text

/-! ## Texts of scalars -/

theorem isMeaningful_of_all {text : List Char} (hne : text ≠ [])
    (h : text.all (fun c => !isBlank c) = true) : IsMeaningful text := by
  have hall : ∀ c ∈ text, isBlank c = false := by simpa using h
  obtain ⟨c, rest, rfl⟩ := List.exists_cons_of_ne_nil hne
  exact ⟨⟨c, List.mem_cons_self, hall c List.mem_cons_self⟩,
    fun c hc => hall c (List.mem_of_mem_head? hc), fun c hc =>
    hall c (List.mem_of_getLast? hc)⟩

theorem isBlank_of_isNumeral {c : Char} (h : Binary64.isNumeral c = true) :
    isBlank c = false := by
  simp only [Binary64.isNumeral, Bool.or_eq_true, beq_iff_eq] at h
  rcases h with (((hdigit | rfl) | rfl) | rfl) | rfl
  · exact isBlank_of_isDecimalDigit (isDecimalDigit_of_isDigit hdigit)
  all_goals decide

theorem isMeaningful_of_numerals {text : List Char} (hne : text ≠ [])
    (h : ∀ c ∈ text, Binary64.isNumeral c = true) : IsMeaningful text := by
  refine isMeaningful_of_all hne (List.all_eq_true.mpr fun c hc => ?_)
  rw [isBlank_of_isNumeral (h c hc), Bool.not_false]

theorem isMeaningful_intText (i : Int) : IsMeaningful (intText i) := by
  have hdigits := Binary64.isNumeral_toDigits i.natAbs
  unfold intText
  split
  · exact isMeaningful_of_numerals (List.cons_ne_nil _ _)
      (List.forall_mem_cons.mpr ⟨by decide, hdigits⟩)
  · exact isMeaningful_of_numerals Nat.toDigits_ne_nil hdigits

theorem isMeaningful_of_scalarText? {value : Json} {text : String}
    (h : scalarText? value = some text) :
    asString? value = some text ∨ IsMeaningful text.toList := by
  cases value with
  | str s => exact .inl h
  | int i =>
      cases h
      exact .inr (by simpa using isMeaningful_intText i)
  | real x =>
      cases h
      right
      simpa using isMeaningful_of_numerals (x.text_ne_nil layout)
        (x.isNumeral_text layout)
  | bool b =>
      cases h
      right
      cases b <;> exact isMeaningful_of_all (by decide) (by decide)
  | null => cases h
  | arr items => cases h
  | obj members => cases h

theorem scalarText?_of_asString? {value : Json} {text : String}
    (h : asString? value = some text) : scalarText? value = some text := by
  cases value with
  | str s => exact h
  | _ => cases h

/-! ## Names of entries -/

/-- The value that names the dependency of an entry: the name in a mapping, or
the entry. -/
def namingValue? : Json → Option Json
  | .obj fields => member? fields "name"
  | entry => some entry

def givenName? (entry : Json) : Option String :=
  (namingValue? entry).bind asString?

theorem map_name_declared? (kind : DependencyKind) (entry : Json) :
    (declared? kind entry).map Dependency.name =
      (namingValue? entry).bind scalarText? := by
  cases entry <;> simp [declared?, namingValue?, textField?, Function.comp_def,
    Dependency.ofName]

theorem declared?_cases {kind : DependencyKind} {entry : Json} {d : Dependency}
    (h : declared? kind entry = some d) :
    givenName? entry = some d.name ∨ IsMeaningful d.name.toList := by
  have hname := map_name_declared? kind entry
  rw [h, Option.map_some, eq_comm] at hname
  obtain ⟨value, hvalue, htext⟩ := Option.bind_eq_some_iff.mp hname
  refine (isMeaningful_of_scalarText? htext).imp_left fun hstring => ?_
  rw [givenName?, hvalue]
  exact hstring

theorem exists_declared? (kind : DependencyKind) {entry : Json} {name : String}
    (h : givenName? entry = some name) :
    ∃ d, declared? kind entry = some d ∧ d.name = name := by
  obtain ⟨value, hvalue, hstring⟩ := Option.bind_eq_some_iff.mp h
  have hname := map_name_declared? kind entry
  rw [hvalue, Option.bind_some, scalarText?_of_asString? hstring] at hname
  exact Option.map_eq_some_iff.mp hname

theorem isMeaningful_of_referenced? {entry : Json} {d : Dependency}
    (h : referenced? entry = some d) : IsMeaningful d.name.toList := by
  cases entry with
  | str reference =>
      obtain ⟨⟨kind, name⟩, hread, rfl⟩ := Option.map_eq_some_iff.mp h
      exact Reference.isMeaningful_of_parse? hread
  | _ => cases h

/-! ## Names of a document -/

def listField : DependencyKind → String
  | .agent => "agents"
  | .workflow => "workflows"
  | .resource => "resources"

def givenNames (fields : List (String × Json)) : List String :=
  [DependencyKind.agent, .workflow, .resource].flatMap fun kind =>
    (entries fields (listField kind)).filterMap givenName?

section

variable {fields : List (String × Json)}

theorem mem_kinds (kind : DependencyKind) :
    kind ∈ [DependencyKind.agent, .workflow, .resource] := by
  cases kind <;> decide

theorem mem_dependenciesOf_iff {d : Dependency} : d ∈ dependenciesOf fields ↔
    (∃ kind, ∃ entry ∈ entries fields (listField kind),
      declared? kind entry = some d) ∨
      ∃ entry ∈ entries fields "requires", referenced? entry = some d := by
  have hkinds : dependenciesOf fields =
      [DependencyKind.agent, .workflow, .resource].flatMap (fun kind =>
        (entries fields (listField kind)).filterMap (declared? kind)) ++
          (entries fields "requires").filterMap referenced? := by
    simp [dependenciesOf, listField]
  simp only [hkinds, List.mem_append, List.mem_flatMap, List.mem_filterMap,
    mem_kinds, true_and]

theorem mem_givenNames_iff {name : String} : name ∈ givenNames fields ↔
    ∃ kind, ∃ entry ∈ entries fields (listField kind),
      givenName? entry = some name := by
  simp only [givenNames, List.mem_flatMap, List.mem_filterMap, mem_kinds,
    true_and]

theorem mem_givenNames_or_isMeaningful {d : Dependency}
    (h : d ∈ dependenciesOf fields) :
    d.name ∈ givenNames fields ∨ IsMeaningful d.name.toList := by
  rcases mem_dependenciesOf_iff.mp h with
      ⟨kind, entry, hentry, hd⟩ | ⟨entry, -, hd⟩
  · exact (declared?_cases hd).imp_left fun hname =>
      mem_givenNames_iff.mpr ⟨kind, entry, hentry, hname⟩
  · exact .inr (isMeaningful_of_referenced? hd)

theorem exists_of_mem_givenNames {name : String}
    (h : name ∈ givenNames fields) :
    ∃ d ∈ dependenciesOf fields, d.name = name := by
  obtain ⟨kind, entry, hentry, hname⟩ := mem_givenNames_iff.mp h
  obtain ⟨d, hd, rfl⟩ := exists_declared? kind hname
  exact ⟨d, mem_dependenciesOf_iff.mpr (.inl ⟨kind, entry, hentry, hd⟩), rfl⟩

end

/-! ## Keys of a document -/

/-- The key of the dependency is read as its kind and its name. -/
def IsReadable (d : Dependency) : Prop :=
  Reference.parse? d.key = some (d.kind, d.name)

theorem isReadable_iff {d : Dependency} :
    IsReadable d ↔ IsMeaningful d.name.toList :=
  Reference.parse?_key_iff

instance (d : Dependency) : Decidable (IsReadable d) :=
  inferInstanceAs (Decidable (Reference.parse? d.key = some (d.kind, d.name)))

/-- All keys are readable exactly where all texts in the lists of names are
meaningful, and a key that is not has one of the others as its name. -/
theorem dependencies_readable_iff {text : String}
    {format : Option DocumentFormat} {w : Workflow}
    (h : parse text format = .ok w) :
    ∃ fields, mapping text format = .ok fields ∧
      ((∀ d ∈ w.dependencies, IsReadable d) ↔
        ∀ name ∈ givenNames fields, IsMeaningful name.toList) ∧
      ∀ d ∈ w.dependencies, IsReadable d ∨
        (d.name ∈ givenNames fields ∧ ¬ IsMeaningful d.name.toList) := by
  obtain ⟨fields, prose, hfields, rfl⟩ := exists_mapping_of_parse h
  refine ⟨fields, hfields, ⟨fun hall name hname => ?_, fun hall d hd => ?_⟩,
    fun d hd => ?_⟩
  · obtain ⟨d, hd, rfl⟩ := exists_of_mem_givenNames hname
    exact isReadable_iff.mp (hall d hd)
  · exact isReadable_iff.mpr
      ((mem_givenNames_or_isMeaningful hd).elim (hall d.name) id)
  · rw [isReadable_iff]
    by_cases hname : IsMeaningful d.name.toList
    · exact .inl hname
    · exact .inr ⟨(mem_givenNames_or_isMeaningful hd).resolve_right hname,
        hname⟩

/-- Numbers, truth values and references of any spelling make readable keys. -/
theorem dependencies_readable_anyEntries :
    ∃ w, parse
      "agents: [a, 7, {name: true}, {name: 1.5}]\nrequires: ['Agents: x ']\n"
      none = .ok w ∧
      w.dependencies.map Dependency.name = ["a", "7", "true", "1.5", "x"] ∧
      ∀ d ∈ w.dependencies, IsReadable d := by
  have hread :
      (parse
        "agents: [a, 7, {name: true}, {name: 1.5}]\nrequires: ['Agents: x ']\n"
        none).map (fun w => w.dependencies.map Dependency.name) =
        .ok ["a", "7", "true", "1.5", "x"] := by
    decide +kernel
  have hgiven :
      (mapping
        "agents: [a, 7, {name: true}, {name: 1.5}]\nrequires: ['Agents: x ']\n"
        none).map givenNames = .ok ["a"] := by
    decide +kernel
  obtain ⟨w, hparse, hnames⟩ := exists_of_map_parse hread
  obtain ⟨fields, hfields, hiff, -⟩ := dependencies_readable_iff hparse
  rw [hfields] at hgiven
  refine ⟨w, hparse, hnames, hiff.mpr ?_⟩
  rw [Except.ok.inj hgiven, List.forall_mem_singleton]
  exact isMeaningful_of_all (by decide) (by decide)

/-- A name with blanks around it and an empty one are kept, though references
drop both. -/
theorem dependencies_not_readable :
    ¬ ∀ text format w, parse text format = .ok w → ∀ d ∈ w.dependencies,
      IsReadable d := by
  intro hall
  have hread :
      (parse "agents: [' x ', '']\nrequires: ['agent: x ', 'agent:']\n"
        none).map (fun w => w.dependencies.map fun d =>
        (d.name, Reference.parse? d.key)) =
        .ok [(" x ", some (.agent, "x")), ("", none),
          ("x", some (.agent, "x"))] := by
    decide +kernel
  obtain ⟨w, hparse, hkeys⟩ := exists_of_map_parse hread
  have hmem : ("", none) ∈ w.dependencies.map fun d =>
      (d.name, Reference.parse? d.key) := by
    rw [hkeys]
    decide
  obtain ⟨d, hd, hkey⟩ := List.mem_map.mp hmem
  have hreadable := hall _ _ w hparse d hd
  rw [IsReadable, (Prod.mk.inj hkey).2] at hreadable
  cases hreadable

end Workflows.Document
