import Workflows.Proofs.Files.Components
import Workflows.Proofs.Resolution.Cache
import Workflows.Proofs.Resolution.Decision

/-!
# Where an entry is

The path of an entry does not say whether it was given or is the conventional
one.  It is taken for conventional where it has the components of the
conventional place.  That is right but for one kind of path: one that is given,
relative to a base that has a component of its own, and spells the conventional
place with the base in front.
-/

open Workflows.Path

namespace Workflows.Resolution

/-- A given path that is taken for the conventional one and leads elsewhere. -/
structure Mistaken (c : Config) (kind : DependencyKind) (name path : String) :
    Prop where
  relative : isAbsolute path.toList = false
  conventional : samePlace path (c.locationOf kind name) = true
  based : ∃ x ∈ components c.basePath, x ≠ .current

section Paths

variable {c : Config} {kind : DependencyKind} {name path : String}

theorem innerOf_base_eq_nil (hpath : isAbsolute path.toList = false)
    (h : samePlace path (c.locationOf kind name) = true)
    (hnot : ¬ Mistaken c kind name path) : innerOf c.basePath.toList = [] := by
  refine innerOf_eq_nil fun x hx => ?_
  by_contra hne
  exact hnot ⟨hpath, h, x, hx, hne⟩

theorem components_eq_of_not_mistaken (hbase : c.basePath ≠ "")
    (hpath : isAbsolute path.toList = false)
    (h : samePlace path (c.locationOf kind name) = true)
    (hnot : ¬ Mistaken c kind name path) :
    components path = components c.basePath ++ innerOf path.toList := by
  have hinner := innerOf_base_eq_nil hpath h hnot
  have hsame := samePlace_iff.mp h
  rw [Config.locationOf, Config.underBase] at hsame
  rw [components, components, componentsOf_eq, componentsOf_eq, hinner,
    List.append_nil]
  congr 1
  cases hconventional : isAbsolute (c.pathOf kind name).toList with
  | true =>
      rw [join_of_absolute hconventional, components, components,
        componentsOf_eq, componentsOf_eq] at hsame
      have habsolute := isAbsolute_eq_of_leadOf_eq (leadOf_eq hsame)
      rw [hpath, hconventional] at habsolute
      cases habsolute
  | false =>
      rw [components_join hbase hconventional, components, components,
        componentsOf_eq, componentsOf_eq, hinner, List.append_nil] at hsame
      exact leadOf_eq hsame

theorem samePlace_underBase_iff
    (h : samePlace path (c.locationOf kind name) = true) :
    samePlace (c.locationOf kind name) (c.underBase path) = true ↔
      ¬ Mistaken c kind name path := by
  rw [samePlace_iff, ← samePlace_iff.mp h, Config.underBase]
  cases hpath : isAbsolute path.toList with
  | true =>
      rw [join_of_absolute hpath]
      refine iff_of_true rfl fun hmistaken => ?_
      rw [hmistaken.relative] at hpath
      cases hpath
  | false =>
      by_cases hbase : c.basePath = ""
      · rw [hbase, join_empty]
        refine iff_of_true rfl fun hmistaken => ?_
        obtain ⟨x, hx, -⟩ := hmistaken.based
        rw [hbase] at hx
        cases hx
      · rw [components_join hbase hpath]
        refine ⟨fun heq hmistaken => ?_,
          components_eq_of_not_mistaken hbase hpath h⟩
        -- all components of the base would belong to what the path starts with
        obtain ⟨x, hx, hcurrent⟩ := hmistaken.based
        rw [components, componentsOf_eq, List.append_cancel_right_eq] at heq
        rw [← heq] at hx
        rcases leadOf_relative hpath with hlead | hlead <;> rw [hlead] at hx
        · cases hx
        · exact hcurrent (List.mem_singleton.mp hx)

end Paths

section Entries

variable {c : Config} {d : ResolvedDependency}

theorem locate_given_iff {path : String} (hpath : d.physicalPath = path) :
    samePlace (locate c d) (c.underBase path) = true ↔
    ¬ Mistaken c d.kind d.name path := by
  rw [locate, isConventional, hpath]
  split
  · next h => exact samePlace_underBase_iff h
  · next h =>
      exact iff_of_true (samePlace_iff.mpr rfl) fun hmistaken =>
        h hmistaken.conventional

theorem locate_conventional
    (hpath : d.physicalPath = c.locationOf d.kind d.name) :
    locate c d = c.locationOf d.kind d.name := by
  rw [locate, isConventional, hpath, if_pos (samePlace_iff.mpr rfl)]

end Entries

/-! ## Entries that were looked up -/

def inspectedAt (c : Config) (kind : DependencyKind) (name : String) :
    Option String → String
  | some path => join c.basePath path
  | none => join c.basePath (c.pathOf kind name)

section LookUp

variable {c : Config} {files : FileTree} {kind : DependencyKind} {name : String}
  {path : Option String} {d : ResolvedDependency}

theorem placesOf_eq (c : Config) (kind : DependencyKind) (name : String)
    (path : Option String) :
    placesOf c kind name path =
      (path.getD (c.locationOf kind name), inspectedAt c kind name path) := by
  cases path <;> rfl

theorem lookUp_eq_ok (h : lookUp c files kind name path = .ok d) :
    ∃ report, files.inspect (inspectedAt c kind name path) = .ok report ∧
      d = entryOf files kind name (path.getD (c.locationOf kind name))
        report := by
  rw [lookUp, placesOf_eq] at h
  dsimp only at h
  cases hreport : files.inspect (inspectedAt c kind name path) with
  | error cause =>
      rw [hreport] at h
      cases h
  | ok report =>
      rw [hreport] at h
      cases h
      exact ⟨report, rfl, rfl⟩

theorem place_entryOf (files : FileTree) (kind : DependencyKind)
    (name path : String) (report : PathReport) :
    (entryOf files kind name path report).kind = kind ∧
      (entryOf files kind name path report).name = name ∧
      (entryOf files kind name path report).physicalPath = path := by
  unfold entryOf
  split
  · exact ⟨rfl, rfl, rfl⟩
  · split <;> exact ⟨rfl, rfl, rfl⟩

theorem lookUp_of_resolve {cache left : Cache}
    (hnone : cache.stored? ⟨Reference.key kind name, path⟩ = none)
    (h : (resolve c files kind name path).onCache cache = (.ok d, left)) :
    lookUp c files kind name path = .ok d := by
  have hanswer := Cache.answer_fetch
    (fun _ => (⟨c, files, kind, name, path⟩ : Request).lookUp) cache
    ⟨Reference.key kind name, path⟩
  rw [hnone] at hanswer
  rw [resolve, Resolving.onCache, Request.answer, Request.key] at h
  generalize Cache.fetch _ _ _ = outcome at h hanswer
  obtain ⟨cause | entry, cache'⟩ := outcome
  · cases h
  · cases h
    exact hanswer.symm

end LookUp

/-! ## Entries that were replaced -/

section Replacement

variable {c : Config} {decision : Decision} {path : String}
  {d d' : ResolvedDependency}

theorem physicalPath_withReplacement (d : ResolvedDependency) (path : String)
    (newVersion : Option String) (report : PathReport) :
    (withReplacement d path newVersion report).physicalPath = path := by
  unfold withReplacement
  split
  · split <;> rfl
  · rfl

theorem Decided.eq_withReplacement (h : Decided c decision d d')
    (haction : decision.action = .replace)
    (hpath : decision.replacementPath = some path) :
    ∃ report, d' = withReplacement d path decision.newVersion report := by
  obtain ⟨files, hentry⟩ := h
  rw [decideEntry] at hentry
  simp only [haction, hpath] at hentry
  cases hreport : files.inspect (c.underBase path) with
  | error cause =>
      rw [hreport] at hentry
      cases hentry
  | ok report =>
      rw [hreport] at hentry
      cases hentry
      exact ⟨report, rfl⟩

theorem physicalPath_of_replaced {r : Registry} {ds : List ResolvedDependency}
    (haction : decision.action = .replace)
    (hpath : decision.replacementPath = some path)
    (h : (carryOut c decision r).2 = .ok ds) (hd : d ∈ ds) :
    d.physicalPath = path := by
  obtain ⟨result, hdecides, -, -, hok⟩ := carryOut_decides c decision r
  obtain rfl := hok ds h
  obtain ⟨before, hdecided⟩ := hdecides.decided_of_mem hd
  obtain ⟨report, rfl⟩ := hdecided.eq_withReplacement haction hpath
  exact physicalPath_withReplacement before path decision.newVersion report

end Replacement

/-- An entry that was looked up is located where it was looked for, and one that
was replaced at the replacement, unless its path was given and is mistaken for
the conventional one. -/
theorem locate_agrees_iff (c : Config) :
    (∀ files kind name path cache d left,
      Cache.stored? cache ⟨Reference.key kind name, path⟩ = none →
      (resolve c files kind name path).onCache cache = (.ok d, left) →
      ∃ report, files.inspect (inspectedAt c kind name path) = .ok report ∧
        d = entryOf files kind name (path.getD (c.locationOf kind name))
          report ∧
        (samePlace (locate c d) (inspectedAt c kind name path) = true ↔
          ∀ given, path = some given → ¬ Mistaken c kind name given)) ∧
    ∀ decision path r ds, decision.action = .replace →
      decision.replacementPath = some path →
      (carryOut c decision r).2 = .ok ds →
      ∀ d ∈ ds, (samePlace (locate c d) (c.underBase path) = true ↔
        ¬ Mistaken c d.kind d.name path) := by
  refine ⟨fun files kind name path cache d left hnone h => ?_,
    fun decision path r ds haction hpath h d hd =>
      locate_given_iff (physicalPath_of_replaced haction hpath h hd)⟩
  obtain ⟨report, hreport, rfl⟩ := lookUp_eq_ok (lookUp_of_resolve hnone h)
  obtain ⟨hkind, hname, hpath⟩ :=
    place_entryOf files kind name (path.getD (c.locationOf kind name)) report
  refine ⟨report, hreport, rfl, ?_⟩
  cases path with
  | some given =>
      have hgiven := locate_given_iff (c := c) hpath
      rw [hkind, hname] at hgiven
      exact hgiven.trans
        ⟨fun hnot _ heq => Option.some.inj heq ▸ hnot, fun hall =>
          hall given rfl⟩
  | none =>
      refine iff_of_true (samePlace_iff.mpr (congrArg components ?_)) nofun
      have hlocate :=
        locate_conventional (c := c) (hpath.trans (by rw [hkind, hname]; rfl))
      rwa [hkind, hname] at hlocate

/-! ## A path with the base in front -/

def nested : FileTree :=
  FileTree.empty.plant ["work", "registry", "registry", "extensions", "agents",
    "x.md"]
    (.newFile (.text ""))

def withBase : String := "registry/extensions/agents/x.md"

def entryWithBase : ResolvedDependency where
  id := "agent:x"
  kind := .agent
  name := "x"
  logicalReference := "agent:x"
  physicalPath := withBase
  resolved := true
  error := none
  errorCode := none
  presence := ⟨true, true, none⟩

def cacheWithBase : Cache :=
  ⟨[⟨⟨"agent:x", some withBase⟩, some entryWithBase⟩], 0, 1⟩

theorem resolve_withBase :
    (resolve (.ofBase "registry") nested .agent "x" (some withBase)).onCache
      .empty = (.ok entryWithBase, cacheWithBase) := by
  decide +kernel

theorem mistaken_withBase :
    Mistaken (.ofBase "registry") .agent "x" withBase where
  relative := by decide
  conventional := by decide +kernel
  based := ⟨.name "registry".toList, by decide +kernel, nofun⟩

theorem locate_agrees_iff_withBase :
    samePlace (locate (.ofBase "registry") entryWithBase)
        "registry/registry/extensions/agents/x.md" = false ∧
      ∃ d, (carryOut (.ofBase "registry") ⟨"agent:x", .replace, none,
          some "y.md"⟩
          ⟨nested, cacheWithBase⟩).2 = .ok [d] ∧
        samePlace (locate (.ofBase "registry") d) "registry/y.md" = true := by
  obtain ⟨hlookedUp, hreplaced⟩ := locate_agrees_iff (.ofBase "registry")
  constructor
  · obtain ⟨report, -, -, hiff⟩ :=
      hlookedUp nested .agent "x" (some withBase) .empty entryWithBase
      cacheWithBase rfl resolve_withBase
    exact Bool.eq_false_iff.mpr fun hsame =>
      hiff.mp hsame withBase rfl mistaken_withBase
  · have hrun :
        (carryOut (.ofBase "registry") ⟨"agent:x", .replace, none, some "y.md"⟩
          ⟨nested, cacheWithBase⟩).2 =
          .ok [withReplacement entryWithBase "y.md" none
            (.missing "registry/y.md")] := by
      decide +kernel
    refine ⟨_, hrun,
      (hreplaced _ "y.md" _ _ rfl rfl hrun _ List.mem_cons_self).mpr ?_⟩
    intro hmistaken
    exact absurd hmistaken.conventional (by decide +kernel)

theorem located_elsewhere :
    ¬ ∀ c files kind name path d left,
      (resolve c files kind name path).onCache .empty = (.ok d, left) →
        samePlace (locate c d) (inspectedAt c kind name path) = true := by
  intro h
  have hsame :=
    h (.ofBase "registry") nested .agent "x" (some withBase) entryWithBase
    cacheWithBase resolve_withBase
  revert hsame
  decide +kernel

end Workflows.Resolution
