import Mathlib
import Workflows.Graph.Build
import Workflows.Proofs.Document.StepIds

/-!
# Node ids

The id of a dependency node is its kind and name, with its position at the end
where a node before it has that id.  With the position at the end it is not
compared again, and a name written with that number before may have taken it.
-/

namespace Workflows.Graph

def plainId (kind : DependencyKind) (name : String) : String :=
  kind.name ++ "-" ++ name

def numberedName (name : String) (number : Nat) : String :=
  name ++ "-" ++ toString number

/-- A name is taken among dependencies of a kind if one of them has it, or one
whose own name was taken got it as its number was put at the end. -/
inductive NameTaken (kind : DependencyKind) : List Dependency → String → Prop
  | declared {earlier : List Dependency} {d : Dependency}
      (hmem : d ∈ earlier) (hkind : d.kind = kind) :
      NameTaken kind earlier d.name
  | numbered {before after : List Dependency} {d : Dependency}
      (hkind : d.kind = kind) (htaken : NameTaken kind before d.name) :
      NameTaken kind (before ++ d :: after)
        (numberedName d.name (before.length + 1))

/-- The name of a dependency is taken by those before it, and with its number at
the end it is the name of one of them. -/
structure Collides (before : List Dependency) (d : Dependency) : Prop where
  taken : NameTaken d.kind before d.name
  written : ∃ e ∈ before, e.kind = d.kind ∧
    e.name = numberedName d.name (before.length + 1)

/-! ## Ids as texts -/

theorem head?_plainId (kind : DependencyKind) (name : String) :
    (plainId kind name).toList.head? = kind.name.toList.head? := by
  cases kind <;> simp [plainId, DependencyKind.name]

theorem plainId_inj {kind kind' : DependencyKind} {name name' : String} :
    plainId kind name = plainId kind' name' ↔ kind = kind' ∧ name = name' := by
  constructor
  · intro h
    have hhead := congrArg (fun s => s.toList.head?) h
    rw [head?_plainId, head?_plainId] at hhead
    have hkind : kind = kind' := by
      cases kind <;> cases kind' <;>
        first | rfl | exact absurd hhead (by decide)
    subst hkind
    exact ⟨rfl, (String.append_right_inj _).mp h⟩
  · rintro ⟨rfl, rfl⟩
    rfl

theorem plainId_numberedName (kind : DependencyKind)
    (name : String) (number : Nat) :
    plainId kind name ++ "-" ++ toString number =
      plainId kind (numberedName name number) := by
  simp [plainId, numberedName, String.append_assoc]

theorem dependencyId_of_mem {taken : List String} {d : Dependency}
    (h : plainId d.kind d.name ∈ taken) (position : Nat) :
    dependencyId taken position d =
      plainId d.kind (numberedName d.name (position + 1)) := by
  rw [← plainId_numberedName]
  exact if_pos h

theorem dependencyId_of_notMem {taken : List String} {d : Dependency}
    (h : plainId d.kind d.name ∉ taken) (position : Nat) :
    dependencyId taken position d = plainId d.kind d.name :=
  if_neg h

/-! ## Names that are taken -/

namespace NameTaken

variable {kind : DependencyKind} {earlier : List Dependency} {name : String}

theorem concat_iff {d : Dependency} :
    NameTaken kind (earlier ++ [d]) name ↔
      NameTaken kind earlier name ∨ d.kind = kind ∧
        (d.name = name ∨ NameTaken kind earlier d.name ∧
          numberedName d.name (earlier.length + 1) = name) := by
  constructor
  · intro h
    generalize hall : earlier ++ [d] = all at h
    cases h with
    | declared hmem hkind =>
        rw [← hall, List.mem_append, List.mem_singleton] at hmem
        rcases hmem with hmem | rfl
        · exact .inl (.declared hmem hkind)
        · exact .inr ⟨hkind, .inl rfl⟩
    | @numbered before after e hkind htaken =>
        rcases List.eq_nil_or_concat after with rfl | ⟨rest, last, rfl⟩
        · obtain ⟨rfl, h⟩ := List.append_inj' hall rfl
          cases h
          exact .inr ⟨hkind, .inr ⟨htaken, rfl⟩⟩
        · rw [List.concat_eq_append, ← List.cons_append, ← List.append_assoc]
            at hall
          obtain ⟨rfl, -⟩ := List.append_inj' hall rfl
          exact .inl (.numbered hkind htaken)
  · rintro (h | ⟨hkind, rfl | ⟨htaken, rfl⟩⟩)
    · cases h with
      | declared hmem hkind =>
          exact .declared (List.mem_append_left _ hmem) hkind
      | numbered hkind htaken =>
          rw [List.append_assoc, List.cons_append]
          exact .numbered hkind htaken
    · exact .declared (List.mem_append_right _ List.mem_cons_self) hkind
    · exact .numbered hkind htaken

/-- The numbers given before are smaller, so that a name with the next number at
its end is taken only where it was written. -/
theorem numberedName_iff :
    NameTaken kind earlier (numberedName name (earlier.length + 1)) ↔
      ∃ e ∈ earlier, e.kind = kind ∧
        e.name = numberedName name (earlier.length + 1) := by
  constructor
  · intro h
    generalize hname : numberedName name (earlier.length + 1) = full at h
    cases h with
    | declared hmem hkind => exact ⟨_, hmem, hkind, rfl⟩
    | numbered hkind htaken =>
        have hnumber := (Text.append_number_inj hname).2
        rw [List.length_append, List.length_cons] at hnumber
        omega
  · rintro ⟨e, hmem, hkind, hname⟩
    rw [← hname]
    exact .declared hmem hkind

end NameTaken

/-! ## Ids that were given -/

/-- The ids given so far stand for the names that are taken. -/
def Stands (taken : List String) (earlier : List Dependency) : Prop :=
  ∀ kind name, plainId kind name ∈ taken ↔ NameTaken kind earlier name

namespace Stands

variable {taken : List String} {earlier : List Dependency}

theorem concat (h : Stands taken earlier) (d : Dependency) :
    Stands (dependencyId taken earlier.length d :: taken) (earlier ++ [d]) := by
  intro kind name
  rw [List.mem_cons, h, NameTaken.concat_iff]
  by_cases hplain : plainId d.kind d.name ∈ taken
  · have htaken := (h d.kind d.name).mp hplain
    rw [dependencyId_of_mem hplain, plainId_inj]
    constructor
    · rintro (⟨rfl, rfl⟩ | hname)
      · exact .inr ⟨rfl, .inr ⟨htaken, rfl⟩⟩
      · exact .inl hname
    · rintro (hname | ⟨rfl, rfl | ⟨-, rfl⟩⟩)
      · exact .inr hname
      · exact .inr htaken
      · exact .inl ⟨rfl, rfl⟩
  · have hfree := (h d.kind d.name).not.mp hplain
    rw [dependencyId_of_notMem hplain, plainId_inj]
    constructor
    · rintro (⟨rfl, rfl⟩ | hname)
      · exact .inr ⟨rfl, .inl rfl⟩
      · exact .inl hname
    · rintro (hname | ⟨rfl, rfl | ⟨htaken, -⟩⟩)
      · exact .inr hname
      · exact .inl ⟨rfl, rfl⟩
      · exact absurd htaken hfree

theorem dependencyId_mem_iff (h : Stands taken earlier) (d : Dependency) :
    dependencyId taken earlier.length d ∈ taken ↔ Collides earlier d := by
  by_cases hplain : plainId d.kind d.name ∈ taken
  · rw [dependencyId_of_mem hplain, h, NameTaken.numberedName_iff]
    exact ⟨fun hwritten => ⟨(h _ _).mp hplain, hwritten⟩, Collides.written⟩
  · rw [dependencyId_of_notMem hplain]
    exact iff_of_false hplain fun hcollides =>
      hplain ((h _ _).mpr hcollides.taken)

theorem nodup_iff (h : Stands taken earlier) (rest : List Dependency) :
    (taken.reverse ++
        (dependencyNodesFrom taken earlier.length rest).map Node.id).Nodup ↔
      taken.Nodup ∧ ∀ before d, before ++ [d] <+: rest →
        ¬ Collides (earlier ++ before) d := by
  induction rest generalizing taken earlier with
  | nil => simp [dependencyNodesFrom]
  | cons first rest ih =>
      have hrest := ih (h.concat first)
      rw [List.length_append, List.length_singleton, List.reverse_cons,
        List.append_assoc, List.singleton_append, List.nodup_cons,
        h.dependencyId_mem_iff] at hrest
      rw [dependencyNodesFrom, List.map_cons, nodeOfDependency]
      refine hrest.trans ?_
      constructor
      · rintro ⟨⟨hfirst, hnodup⟩, hlater⟩
        refine ⟨hnodup, fun before d hprefix => ?_⟩
        cases before with
        | nil =>
            obtain ⟨rfl, -⟩ := List.cons_prefix_cons.mp hprefix
            rwa [List.append_nil]
        | cons other before =>
            obtain ⟨rfl, hbefore⟩ := List.cons_prefix_cons.mp hprefix
            simpa using hlater before d hbefore
      · rintro ⟨hnodup, hall⟩
        refine ⟨⟨?_, hnodup⟩, fun before d hprefix => ?_⟩
        · have :=
            hall [] first (List.cons_prefix_cons.mpr ⟨rfl, List.nil_prefix⟩)
          rwa [List.append_nil] at this
        · have :=
            hall (first :: before) d (List.cons_prefix_cons.mpr ⟨rfl, hprefix⟩)
          simpa using this

end Stands

/-! ## The ids of a graph -/

theorem map_chainNodes {α : Type} (seen : Node → α) (ofStep : Step → α)
    (h : ∀ position s, seen (nodeOfStep position s) = ofStep s)
    (steps : List Step) :
    (chainNodes steps).map seen =
      seen startNode ::
        (steps.map ofStep ++ [seen (endNode steps.length)]) := by
  have hsteps : (steps.mapIdx nodeOfStep).map seen = steps.map ofStep := by
    apply List.ext_getElem
    · simp
    · intro position _ _
      simp [h]
  rw [chainNodes, List.map_cons, List.map_append, hsteps]
  rfl

theorem map_id_chainNodes (steps : List Step) :
    (chainNodes steps).map Node.id =
      startId :: (steps.map Step.id ++ [endId]) :=
  map_chainNodes Node.id Step.id (fun _ _ => rfl) steps

theorem stepId_ne_startId (position : Nat) :
    Document.stepId position ≠ startId := by
  intro h
  have htake := congrArg (fun s => s.toList.take 3) h
  simp [Document.stepId, startId] at htake

theorem stepId_ne_endId (position : Nat) :
    Document.stepId position ≠ endId := by
  intro h
  have hhead := congrArg (fun s => s.toList.head?) h
  simp [Document.stepId, endId] at hhead

theorem plainId_notMem_chainIds {w : Workflow} (h : w.IsNumbered)
    (kind : DependencyKind) (name : String) :
    plainId kind name ∉ (chainNodes w.steps).map Node.id := by
  intro hmem
  have hhead := head?_plainId kind name
  rw [map_id_chainNodes, h, List.mem_cons, List.mem_append, List.mem_singleton,
    List.mem_map] at hmem
  rcases hmem with hstart | ⟨position, -, hstep⟩ | hend
  · rw [hstart] at hhead
    cases kind <;> exact absurd hhead (by decide)
  · rw [← hstep] at hhead
    cases kind <;> simp [Document.stepId, DependencyKind.name] at hhead
  · rw [hend] at hhead
    cases kind <;> exact absurd hhead (by decide)

theorem nodup_chainIds {w : Workflow} (h : w.IsNumbered) :
    ((chainNodes w.steps).map Node.id).Nodup := by
  have hsteps : ∀ id ∈ w.steps.map Step.id, id ≠ startId ∧ id ≠ endId := by
    intro id hid
    rw [h, List.mem_map] at hid
    obtain ⟨position, -, rfl⟩ := hid
    exact ⟨stepId_ne_startId position, stepId_ne_endId position⟩
  rw [map_id_chainNodes, List.nodup_cons, List.mem_append, List.mem_singleton]
  refine ⟨?_, List.Nodup.append ?_ (List.nodup_singleton _) ?_⟩
  · rintro (hmem | heq)
    · exact (hsteps _ hmem).1 rfl
    · exact absurd heq (by decide)
  · rw [h]
    exact Document.nodup_stepIds _
  · intro id hid hend
    exact (hsteps id hid).2 (List.mem_singleton.mp hend)

theorem stands_chainIds {w : Workflow} (h : w.IsNumbered) :
    Stands ((chainNodes w.steps).map Node.id) [] := by
  intro kind name
  refine iff_of_false (plainId_notMem_chainIds h kind name) ?_
  intro htaken
  generalize hnone : ([] : List Dependency) = none at htaken
  cases htaken with
  | declared hmem _ =>
      rw [← hnone] at hmem
      cases hmem
  | numbered _ _ => exact absurd hnone (by simp)

theorem ids_nodup_iff_of_isNumbered {w : Workflow} (h : w.IsNumbered)
    (specId : String) :
    (ofWorkflow w specId).ids.Nodup ↔ ∀ before d,
      before ++ [d] <+: w.dependencies → ¬ Collides before d := by
  have hids := (stands_chainIds h).nodup_iff w.dependencies
  have hperm : ((ofWorkflow w specId).ids).Perm
      (((chainNodes w.steps).map Node.id).reverse ++
        (dependencyNodes w).map Node.id) := by
    rw [ids, ofWorkflow, List.map_append]
    exact (List.reverse_perm _).symm.append_right _
  rw [hperm.nodup_iff]
  refine hids.trans ?_
  rw [and_iff_right (nodup_chainIds h)]
  rfl

/-- The nodes of the graph of a document that is read have different ids unless
a dependency with a taken name gets, with its number, the name of an earlier
one. -/
theorem ids_nodup_iff {text : String} {format : Option DocumentFormat}
    {w : Workflow} (h : Document.parse text format = .ok w) (specId : String) :
    (ofWorkflow w specId).ids.Nodup ↔ ∀ before d,
      before ++ [d] <+: w.dependencies → ¬ Collides before d :=
  ids_nodup_iff_of_isNumbered (Document.isNumbered_of_parse h) specId

theorem exists_of_map_dependencies {text : String} {deps : List Dependency}
    (h : (Document.parse text none).map Workflow.dependencies = .ok deps) :
    ∃ w, Document.parse text none = .ok w ∧ w.dependencies = deps :=
  Document.exists_of_map_parse h

theorem ids_nodup_repeated_name :
    ∃ w, Document.parse "agents: [h, h]\n" none = .ok w ∧
      (ofWorkflow w "spec").ids.Nodup := by
  have hread :
      (Document.parse "agents: [h, h]\n" none).map Workflow.dependencies =
      .ok [.ofName .agent "h", .ofName .agent "h"] := by
    cbv
  obtain ⟨w, hparse, hdeps⟩ := exists_of_map_dependencies hread
  refine ⟨w, hparse, (ids_nodup_iff hparse "spec").mpr ?_⟩
  rw [hdeps]
  intro before d hprefix hcollides
  obtain ⟨e, he, -, hname⟩ := hcollides.written
  cases before with
  | nil => cases he
  | cons first before =>
      obtain ⟨rfl, hrest⟩ := List.cons_prefix_cons.mp hprefix
      cases before with
      | nil =>
          obtain ⟨rfl, -⟩ := List.cons_prefix_cons.mp hrest
          rw [List.mem_singleton.mp he] at hname
          exact absurd hname (by decide)
      | cons second before =>
          have hlength := hrest.length_le
          simp at hlength

theorem ids_not_nodup_numbered_name :
    ¬ ∀ text w specId, Document.parse text none = .ok w →
      (ofWorkflow w specId).ids.Nodup := by
  intro h
  have hread :
      (Document.parse "agents: [h-3, h, h]\n" none).map Workflow.dependencies =
        .ok [.ofName .agent "h-3", .ofName .agent "h", .ofName .agent "h"] := by
    cbv
  obtain ⟨w, hparse, hdeps⟩ := exists_of_map_dependencies hread
  have hnodup := h _ w "spec" hparse
  rw [ids_nodup_iff_of_isNumbered (Document.isNumbered_of_parse hparse),
    hdeps] at hnodup
  refine hnodup [.ofName .agent "h-3", .ofName .agent "h"] (.ofName .agent "h")
    (List.prefix_refl _) ⟨?_, .ofName .agent "h-3", List.mem_cons_self,
      rfl, rfl⟩
  exact .declared (List.mem_cons_of_mem _ List.mem_cons_self) rfl

end Workflows.Graph
