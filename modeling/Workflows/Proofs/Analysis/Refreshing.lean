import Mathlib.Logic.Relation
import Workflows.Proofs.Analysis.Agreement
import Workflows.Proofs.Graph.ChainCycles

/-!
# What a validation refreshes

A validation writes the marks of nodes, edges and metadata and looks at none of
them, so graphs that differ in their marks alone are validated alike.  To fill
the paths changes nothing but paths.  The complexity and the cycles of a graph
depend on neither, and what was recorded of them when the graph was built stays
true of it.
-/

namespace Workflows

open Analysis

/-! ## Marks -/

def Node.unmarked (n : Node) : Node :=
  { n with validated := false, issues := [] }

def Edge.unmarked (e : Edge) : Edge :=
  { e with validated := false, pathResolved := none }

def GraphMetadata.unmarked (m : GraphMetadata) : GraphMetadata :=
  { m with status := .invalid, lastValidated := none }

namespace Graph

/-- The graph with every mark of a validation reset. -/
def unmarked (g : Graph) : Graph :=
  { g with
    nodes := g.nodes.map Node.unmarked
    edges := g.edges.map Edge.unmarked
    metadata := g.metadata.unmarked }

def datedAt (g : Graph) (now : String) : Graph :=
  { g with metadata := { g.metadata with lastValidated := some now } }

section

variable (g : Graph) (files : FileTree) (base now : String)

theorem unmarked_validate :
    (g.validate files base now).1.unmarked = g.unmarked := by
  simp only [unmarked, validate, List.map_map]
  rfl

theorem ids_unmarked : g.unmarked.ids = g.ids := List.map_map

theorem findings_unmarked :
    g.unmarked.findings files base = g.findings files base := by
  have hnodes : g.unmarked.nodes.flatMap (Node.findings files base) =
      g.nodes.flatMap (Node.findings files base) := List.flatMap_map ..
  have hedges : g.unmarked.edges.filterMap g.unmarked.edgeFinding? =
      g.edges.filterMap g.edgeFinding? := by
    rw [edgeFinding?_congr g.ids_unmarked]
    exact List.filterMap_map
  rw [findings, hnodes, hedges]
  rfl

theorem validate_unmarked :
    g.unmarked.validate files base now = g.validate files base now := by
  have hnodes : g.unmarked.nodes.map (Node.refreshed files base) =
      g.nodes.map (Node.refreshed files base) := List.map_map
  -- the edges are marked by nodes that are refreshed already, so any nodes will
  -- do here
  have hedges (nodes : List Node) : (g.unmarked.edges.map fun e => { e with
        validated := g.unmarked.hasEnds e, pathResolved :=
          pathResolved? nodes e }) =
      g.edges.map fun e => { e with
        validated := g.hasEnds e, pathResolved := pathResolved? nodes e } := by
    rw [hasEnds_congr g.ids_unmarked]
    exact List.map_map
  rw [validate, findings_unmarked, hnodes, hedges]
  rfl

end

theorem validate_congr {g g' : Graph} (h : g.unmarked = g'.unmarked)
    (files : FileTree) (base now : String) :
    g.validate files base now = g'.validate files base now := by
  rw [← g.validate_unmarked, h, g'.validate_unmarked]

theorem validate_validate (g : Graph) (files : FileTree)
    (base now later : String) :
    (g.validate files base now).1.validate files base later =
      g.validate files base later :=
  validate_congr (g.unmarked_validate files base now) files base later

end Graph

/-! ## Marks and paths -/

def Node.outline (n : Node) : Node := { n.unmarked with path := none }

namespace Graph

/-- The graph with every mark reset and without the paths of its nodes. -/
def outline (g : Graph) : Graph :=
  { g.unmarked with nodes := g.nodes.map Node.outline }

/-- A graph is filled with paths through a cache, or validated. -/
inductive Processed (g : Graph) : Graph → Prop
  | filled {c : Config} {files : FileTree} {cache left : Cache} {g' : Graph}
      (h : (fillPaths c files g).onCache cache = (.ok g', left)) :
      Processed g g'
  | validated (files : FileTree) (base now : String) :
      Processed g (g.validate files base now).1

theorem outline_of_given {c : Config} {files : FileTree} {cache : Cache}
    {n n' : Node} (h : (fillPath c files n).given cache.answers = .ok n') :
    n'.outline = n.outline := by
  obtain ⟨hfilled, hkept⟩ := given_fillPath h
  by_cases hawaits : ∃ kind, n.Awaits kind
  · obtain ⟨kind, hkind⟩ := hawaits
    obtain ⟨d, -, rfl⟩ := hfilled kind hkind
    rfl
  · rw [hkept (not_exists.mp hawaits)]

theorem outline_fillPaths {c : Config} {files : FileTree} {cache left : Cache}
    {g g' : Graph} (h : (fillPaths c files g).onCache cache = (.ok g', left)) :
    g'.outline = g.outline := by
  obtain ⟨hnodes, hrest, -⟩ := onCache_fillPaths h
  have hmap : g'.nodes.map Node.outline = g.nodes.map Node.outline := by
    clear hrest h
    generalize g.nodes = before, g'.nodes = after at hnodes
    induction hnodes with
    | nil => rfl
    | cons hgiven _ ih =>
        rw [List.map_cons, List.map_cons, outline_of_given hgiven, ih]
  generalize g'.nodes = nodes at hmap hrest
  subst hrest
  rw [outline, outline, hmap]
  rfl

theorem outline_validate (g : Graph) (files : FileTree) (base now : String) :
    (g.validate files base now).1.outline = g.outline := by
  have hunmarked := g.unmarked_validate files base now
  have hnodes (g : Graph) : g.nodes.map Node.outline =
      g.unmarked.nodes.map fun n => { n with path := none } := by
    rw [unmarked, List.map_map]
    rfl
  rw [outline, hnodes, hunmarked, ← hnodes]
  rfl

theorem outline_of_run {g g' : Graph}
    (h : Relation.ReflTransGen Processed g g') :
    g'.outline = g.outline := by
  induction h with
  | refl => rfl
  | tail _ hstep ih =>
      refine Eq.trans ?_ ih
      cases hstep with
      | filled h => exact outline_fillPaths h
      | validated files base now => exact outline_validate _ files base now

/-! ## Complexity and cycles -/

theorem complexityScore_congr {g g' : Graph}
    (hkinds : g.nodes.map Node.kind = g'.nodes.map Node.kind)
    (hedges : g.edges.length = g'.edges.length) :
    g.complexityScore = g'.complexityScore := by
  have hnodes : g.nodes.length = g'.nodes.length := by
    rw [← List.length_map Node.kind, hkinds, List.length_map]
  rw [complexityScore, complexityScore, nodeCount_eq_count, nodeCount_eq_count,
    hkinds, hnodes, hedges]

theorem complexityScore_outline (g : Graph) :
    g.outline.complexityScore = g.complexityScore := by
  apply complexityScore_congr
  · exact List.map_map
  · exact List.length_map _

theorem cycles_outline (g : Graph) : g.outline.cycles = g.cycles := by
  apply cycles_congr
  · exact List.map_map
  · exact List.map_map

theorem metadata_complexity (w : Workflow) (specId : String) :
    (ofWorkflow w specId).metadata.complexity =
      (ofWorkflow w specId).complexityScore := by
  unfold ofWorkflow
  dsimp only
  exact complexityScore_congr rfl rfl

theorem recorded_of_outline_eq {g g' : Graph}
    (houtline : g'.outline = g.outline)
    (h : g.metadata.complexity = g.complexityScore ∧
      g.metadata.cycles = g.cycles) :
    g'.metadata.complexity = g'.complexityScore ∧
    g'.metadata.cycles = g'.cycles := by
  have hcomplexity : g'.metadata.complexity = g.metadata.complexity :=
    congrArg (fun g => g.metadata.complexity) houtline
  have hcycles : g'.metadata.cycles = g.metadata.cycles :=
    congrArg (fun g => g.metadata.cycles) houtline
  constructor
  · rw [hcomplexity, h.1, ← complexityScore_outline, ← houtline,
      complexityScore_outline]
  · rw [hcycles, h.2, ← cycles_outline, ← houtline, cycles_outline]

theorem recorded_of_run {w : Workflow} {specId : String} {g : Graph}
    (h : Relation.ReflTransGen Processed (ofWorkflow w specId) g) :
    g.metadata.complexity = g.complexityScore ∧ g.metadata.cycles = g.cycles :=
  recorded_of_outline_eq (outline_of_run h)
    ⟨metadata_complexity w specId, metadata_cycles w specId⟩

/-! ## Validations -/

/-- A validation changes nothing but the marks and depends on everything but
them, so one after another finds the same and leaves the same graph, save for
its date.  However often a built graph is filled with paths and validated, its
recorded complexity and cycles are its own. -/
theorem validate_refreshes_marks (files : FileTree) (base : String) :
    (∀ (g : Graph) now, (g.validate files base now).1.unmarked = g.unmarked) ∧
    (∀ (g g' : Graph) now, g.unmarked = g'.unmarked →
      g.validate files base now = g'.validate files base now) ∧
    (∀ (g : Graph) now later,
      (g.validate files base now).1.validate files base later =
      ((g.validate files base now).1.datedAt later,
        (g.validate files base now).2)) ∧
    ∀ w specId g, Relation.ReflTransGen Processed (ofWorkflow w specId) g →
      g.metadata.complexity = g.complexityScore ∧
      g.metadata.cycles = g.cycles := by
  refine ⟨fun g now => g.unmarked_validate files base now,
    fun g g' now h => validate_congr h files base now, fun g now later => ?_,
    fun w specId g => recorded_of_run⟩
  rw [validate_validate]
  rfl

def staleAgents : Graph :=
  { twoAgents with
    nodes := twoAgents.nodes.map fun n =>
      { n with validated := true, issues := [.info "CHECKED" "checked"] }
    metadata :=
      { twoAgents.metadata with
        status := .valid, lastValidated := some "before" } }

def circleWithAgent : Workflow where
  name := "circle"
  description := none
  version := none
  author := none
  steps := [
    { Step.ofName "step-1" "a" with agent := some "x" },
    { Step.ofName "step-2" "b" with
      kind := "decision", next := some (.one "step-1") }]
  dependencies := [.ofName .agent "x"]
  metadata := []

theorem validate_refreshes_marks_circle :
    staleAgents ≠ twoAgents ∧ staleAgents.unmarked = twoAgents.unmarked ∧
      staleAgents.validate oneAgent "registry" "now" =
        twoAgents.validate oneAgent "registry" "now" ∧
      ∃ filled left, (fillPaths (.ofBase "registry") oneAgent
          (ofWorkflow circleWithAgent "spec")).onCache .empty =
          (.ok filled, left) ∧
        ∃ g, g = ((filled.validate oneAgent "registry" "now").1.validate .empty
            "registry" "later").1 ∧
          g.metadata.complexity = g.complexityScore ∧
          g.metadata.cycles = g.cycles ∧
          g.metadata.cycles = [["step-1", "step-2", "step-1"]] := by
  obtain ⟨-, hstale, -, hrun⟩ := validate_refreshes_marks oneAgent "registry"
  have hmarks : staleAgents.unmarked = twoAgents.unmarked := by decide +kernel
  refine ⟨by decide +kernel, hmarks, hstale _ _ "now" hmarks, ?_⟩
  have hseen : ((fillPaths (.ofBase "registry") oneAgent
      (ofWorkflow circleWithAgent "spec")).onCache .empty).1.map
        (fun g => g.metadata.cycles) =
        .ok [["step-1", "step-2", "step-1"]] := by
    decide +kernel
  obtain ⟨filled, left, hfilled, hcycles⟩ :=
    Resolving.exists_of_map_onCache hseen
  obtain ⟨hcomplexity, hrecorded⟩ := hrun circleWithAgent "spec" _
    (((Relation.ReflTransGen.single (.filled hfilled)).tail
      (.validated oneAgent "registry" "now")).tail
      (.validated .empty "registry" "later"))
  exact ⟨filled, left, hfilled, _, rfl, hcomplexity, hrecorded, hcycles⟩

end Graph

end Workflows
