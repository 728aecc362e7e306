import Workflows.Graph.Build
import Workflows.Proofs.Graph.Codec

/-!
# The places of a built graph

The nodes of a built graph stand in two rows, at places whose coordinates are
multiples of 100. They are whole, and every other number of a built graph is cut
to the width of its field.
-/

namespace Workflows.Graph

open Binary64 Json

structure WellPlaced (n : Node) : Prop where
  fits : n.metadata.Fits
  whole : ∀ p ∈ n.metadata.position, p.Whole

theorem countField?_lt {metadata : List (String × Json)} {name : String}
    {n : Nat} (h : countField? metadata name = some n) : n < 2 ^ 64 := by
  obtain ⟨value, -, hcount⟩ := Option.bind_eq_some_iff.mp h
  exact asNat?_lt hcount

theorem wellPlaced {n : Node} {x y : Nat} (hx : x < 2 ^ 40) (hy : y < 2 ^ 40)
    (hposition : n.metadata.position = some ⟨.ofNat x, .ofNat y⟩)
    (hcomplexity : ∀ c ∈ n.metadata.complexity, c < 2 ^ 32)
    (htime : ∀ t ∈ n.metadata.executionTime, t < 2 ^ 64) : WellPlaced n := by
  have hx53 : x < 2 ^ 53 := by omega
  have hy53 : y < 2 ^ 53 := by omega
  rw [ofNat_eq_whole hx53, ofNat_eq_whole hy53] at hposition
  refine ⟨⟨?_, hcomplexity, htime⟩, ?_⟩
  · rintro p hp
    rw [hposition] at hp
    cases hp
    exact ⟨whole_regular false hx53, whole_regular false hy53⟩
  · rintro p hp
    rw [hposition] at hp
    cases hp
    exact ⟨whole_wholeBelow false hx53 hx, whole_wholeBelow false hy53 hy⟩

theorem wellPlaced_startNode : WellPlaced startNode :=
  wellPlaced (x := 0 * spacing) (y := 100) (by decide) (by decide) rfl nofun
    nofun

theorem wellPlaced_endNode {count : Nat} (h : count < 2 ^ 32) :
    WellPlaced (endNode count) :=
  wellPlaced (x := (count + 1) * spacing) (y := 100) (by rw [spacing]; omega)
    (by decide) rfl nofun nofun

theorem wellPlaced_nodeOfStep {position : Nat} (h : position < 2 ^ 32)
    (s : Step) :
    WellPlaced (nodeOfStep position s) := by
  refine wellPlaced (x := (position + 1) * spacing) (y := 100)
    (by rw [spacing]; omega) (by decide) rfl ?_ ?_
  · intro c hc
    obtain ⟨n, -, rfl⟩ := Option.map_eq_some_iff.mp hc
    rw [maxComplexity, Nat.pow_eq]
    omega
  · intro t ht
    rcases Option.or_eq_some_iff.mp (by simpa [nodeOfStep] using ht) with
        h | ⟨-, h⟩ <;>
      exact countField?_lt h

theorem wellPlaced_nodeOfDependency {position : Nat} (h : position < 2 ^ 32)
    (id : String) (d : Dependency) :
    WellPlaced (nodeOfDependency id position d) :=
  wellPlaced (x := position * spacing) (y := 300) (by rw [spacing]; omega)
    (by decide) rfl nofun nofun

theorem wellPlaced_dependencyNodesFrom {taken : List String} {position : Nat}
    {ds : List Dependency} (h : position + ds.length < 2 ^ 32) :
    ∀ n ∈ dependencyNodesFrom taken position ds, WellPlaced n := by
  induction ds generalizing taken position with
  | nil => exact fun _ hn => absurd hn List.not_mem_nil
  | cons d ds ih =>
      rw [List.length_cons] at h
      intro n hn
      rcases List.mem_cons.mp hn with rfl | hn
      · exact wellPlaced_nodeOfDependency (by omega) _ d
      · exact ih (by omega) n hn

theorem wellPlaced_ofWorkflow {w : Workflow} (hsteps : w.steps.length < 2 ^ 32)
    (hdependencies : w.dependencies.length < 2 ^ 32) (specId : String) :
    ∀ n ∈ (ofWorkflow w specId).nodes, WellPlaced n := by
  intro n hn
  rcases List.mem_append.mp hn with hn | hn
  · rcases List.mem_cons.mp hn with rfl | hn
    · exact wellPlaced_startNode
    · rcases List.mem_append.mp hn with hn | hn
      · obtain ⟨i, hi, rfl⟩ := List.mem_mapIdx.mp hn
        exact wellPlaced_nodeOfStep (by omega) _
      · rw [List.mem_singleton.mp hn]
        exact wellPlaced_endNode hsteps
  · exact wellPlaced_dependencyNodesFrom (by omega) n hn

theorem complexityScore_le (g : Graph) : g.complexityScore ≤ 100 := by
  rw [complexityScore]
  split
  · exact Nat.zero_le _
  · exact Nat.min_le_left _ _

theorem fits_ofWorkflow {w : Workflow} (hsteps : w.steps.length < 2 ^ 32)
    (hdependencies : w.dependencies.length < 2 ^ 32) (specId : String) :
    (ofWorkflow w specId).Fits := by
  have hcomplexity : (ofWorkflow w specId).metadata.complexity ≤ 100 := by
    simp only [ofWorkflow]
    exact complexityScore_le _
  have htotal : (ofWorkflow w specId).metadata.totalSteps = w.steps.length :=
    rfl
  have hcount : (ofWorkflow w specId).metadata.dependencyCount =
      w.dependencies.length := rfl
  exact ⟨fun n hn =>
    (wellPlaced_ofWorkflow hsteps hdependencies specId n hn).fits,
    ⟨by omega, by omega, by omega⟩⟩

theorem wholePlaces_ofWorkflow {w : Workflow} (hsteps : w.steps.length < 2 ^ 32)
    (hdependencies : w.dependencies.length < 2 ^ 32) (specId : String) :
    (ofWorkflow w specId).WholePlaces :=
  fun n hn => (wellPlaced_ofWorkflow hsteps hdependencies specId n hn).whole

end Workflows.Graph
