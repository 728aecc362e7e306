import Mathlib.Order.Bounds.Basic
import Workflows.Proofs.Graph.Distances

/-!
# How far a graph reaches

The sources of a graph are the nodes that no edge enters, or its first node
where every node is entered; an edge with an unknown end counts for nothing.  A
node is as far away as its nearest source, and the longest distance is that of
the node farthest away.
-/

namespace Workflows.Graph

/-! ## Sources and distances -/

/-- The edges have known ends and lead, one after the other, from one node to
another. -/
inductive Walk (g : Graph) (source : String) : List Edge → String → Prop
  | start (hsource : source ∈ g.ids) : Walk g source [] source
  | follow {edges : List Edge} {e : Edge} (h : Walk g source edges e.source)
      (he : e ∈ g.edges) (htarget : e.target ∈ g.ids) :
      Walk g source (edges ++ [e]) e.target

structure IsRoot (g : Graph) (id : String) : Prop where
  known : id ∈ g.ids
  unentered : ∀ e ∈ g.edges, e.source ∈ g.ids → e.target ∈ g.ids → e.target ≠ id

inductive IsSource (g : Graph) (id : String) : Prop
  | root (h : g.IsRoot id)
  | first (hentered : ∀ other, ¬ g.IsRoot other) (h : g.ids.head? = some id)

/-- The least number of edges on a walk to the node from any of the sources. -/
def IsDistance (g : Graph) (id : String) : Nat → Prop :=
  IsLeast {n | ∃ source edges, g.IsSource source ∧ g.Walk source edges id ∧
    edges.length = n}

/-! ## Walks of the search -/

section

variable {g : Graph} {source id : String}

theorem Walk.mem_ids {edges : List Edge} (h : g.Walk source edges id) :
    id ∈ g.ids := by
  cases h with
  | start hsource => exact hsource
  | follow _ _ htarget => exact htarget

theorem Walk.reachedIn {edges : List Edge} (h : g.Walk source edges id) :
    ReachedIn (Adjacency.ofGraph g).successors source edges.length id := by
  induction h with
  | start => exact .root
  | follow hwalk he htarget ih =>
      rw [List.length_append, List.length_singleton]
      exact ih.next (Adjacency.mem_successors_iff.mpr ⟨_, he, rfl, rfl,
        hasNode_eq_true_iff.mpr hwalk.mem_ids, hasNode_eq_true_iff.mpr htarget⟩)

theorem exists_walk {n : Nat} (hsource : source ∈ g.ids)
    (h : ReachedIn (Adjacency.ofGraph g).successors source n id) :
    ∃ edges, g.Walk source edges id ∧ edges.length = n := by
  induction h with
  | root => exact ⟨[], .start hsource, rfl⟩
  | next _ hnext ih =>
      obtain ⟨edges, hwalk, hlength⟩ := ih
      obtain ⟨e, he, rfl, rfl, -, htarget⟩ :=
        Adjacency.mem_successors_iff.mp hnext
      refine ⟨edges ++ [e], hwalk.follow he (hasNode_eq_true_iff.mp htarget),
        ?_⟩
      rw [List.length_append, List.length_singleton, hlength]

/-! ## Sources of the search -/

theorem isRoot_iff :
    g.IsRoot id ↔ id ∈ g.ids ∧ (Adjacency.ofGraph g).isEntered id = false := by
  rw [Adjacency.isEntered_ofGraph, List.any_eq_false]
  simp only [Bool.and_eq_true, beq_iff_eq, hasNode_eq_true_iff]
  constructor
  · rintro ⟨hknown, hunentered⟩
    exact ⟨hknown, fun e he ⟨⟨hid, hsource⟩, htarget⟩ =>
      hunentered e he hsource htarget hid⟩
  · rintro ⟨hknown, hunentered⟩
    exact ⟨hknown, fun e he hsource htarget hid =>
      hunentered e he ⟨⟨hid, hsource⟩, htarget⟩⟩

theorem mem_roots_iff_isRoot (h : g.ids.Nodup) :
    id ∈ (Adjacency.ofGraph g).roots ↔ g.IsRoot id := by
  rw [isRoot_iff]
  constructor
  · intro hroot
    have hknown := Adjacency.mem_ids_of_mem_roots hroot
    exact ⟨hknown,
      (Adjacency.mem_roots_iff (List.count_eq_one_of_mem h hknown)).mp hroot⟩
  · rintro ⟨hknown, hunentered⟩
    exact (Adjacency.mem_roots_iff (List.count_eq_one_of_mem h hknown)).mpr
      hunentered

theorem mem_sources_iff_isSource (h : g.ids.Nodup) :
    id ∈ sources (Adjacency.ofGraph g) g ↔ g.IsSource id := by
  rw [sources]
  split
  · next hnone =>
      have hentered : ∀ other, ¬ g.IsRoot other := by
        intro other hother
        have hmem := (mem_roots_iff_isRoot h).mpr hother
        rw [hnone] at hmem
        cases hmem
      rw [List.take_one, Option.mem_toList]
      constructor
      · exact .first hentered
      · rintro (hroot | ⟨-, hfirst⟩)
        · exact absurd hroot (hentered id)
        · exact hfirst
  · next hsome =>
      rw [mem_roots_iff_isRoot h]
      constructor
      · exact .root
      · rintro (hroot | ⟨hentered, -⟩)
        · exact hroot
        · obtain ⟨other, hother⟩ := List.exists_mem_of_ne_nil _ hsome
          exact absurd ((mem_roots_iff_isRoot h).mp hother) (hentered other)

/-! ## The farthest node -/

theorem mem_distances_iff_isDistance (h : g.ids.Nodup) {n : Nat} :
    (id, n) ∈ g.distances ↔ g.IsDistance id n := by
  rw [mem_distances_iff]
  constructor
  · rintro ⟨⟨source, hsource, hreached⟩, hleast⟩
    obtain ⟨edges, hwalk, hlength⟩ :=
      exists_walk (mem_ids_of_mem_sources hsource) hreached
    refine ⟨⟨source, edges, (mem_sources_iff_isSource h).mp hsource, hwalk,
      hlength⟩, ?_⟩
    rintro m ⟨other, edges', hother, hwalk', rfl⟩
    exact hleast other ((mem_sources_iff_isSource h).mpr hother) _
      hwalk'.reachedIn
  · rintro ⟨⟨source, edges, hsource, hwalk, rfl⟩, hleast⟩
    refine ⟨⟨source, (mem_sources_iff_isSource h).mpr hsource, hwalk.reachedIn⟩,
      ?_⟩
    intro other hother m hreached
    obtain ⟨edges', hwalk', hlength⟩ :=
      exists_walk (mem_ids_of_mem_sources hother) hreached
    exact hleast ⟨other, edges', (mem_sources_iff_isSource h).mp hother, hwalk',
      hlength⟩

theorem sources_ne_nil (h : g.nodes ≠ []) :
    sources (Adjacency.ofGraph g) g ≠ [] := by
  rw [sources]
  split
  · simpa [ids] using h
  · next hsome => exact hsome

theorem mem_distances_of_mem_sources
    (h : id ∈ sources (Adjacency.ofGraph g) g) :
    (id, 0) ∈ g.distances :=
  mem_distances_iff.mpr ⟨⟨id, h, .root⟩, fun _ _ _ _ => Nat.zero_le _⟩

theorem exists_longest (h : g.nodes ≠ []) :
    ∃ id, (id, g.longestDistance) ∈ g.distances := by
  obtain ⟨source, hsource⟩ := List.exists_mem_of_ne_nil _ (sources_ne_nil h)
  by_contra hnone
  have hother : ∀ entry ∈ g.distances, entry.2 ≠ g.longestDistance := by
    rintro ⟨id, n⟩ hentry rfl
    exact hnone ⟨id, hentry⟩
  have hpositive := hother _ (mem_distances_of_mem_sources hsource)
  -- all distances would be shorter, and so would be the longest
  have hshorter : g.longestDistance ≤ g.longestDistance - 1 := by
    refine longestDistance_le_iff.mpr fun entry hentry => ?_
    have hle := longestDistance_le_iff.mp (Nat.le_refl _) entry hentry
    have hne := hother entry hentry
    omega
  omega

end

/-- The longest distance of a graph is 0 where there are no nodes, and otherwise
that of the node which is farthest from the sources. -/
theorem longestDistance_isGreatest (g : Graph) (h : g.ids.Nodup) :
    (g.nodes = [] → (Metrics.ofGraph g).longestDistance = 0) ∧
      (g.nodes ≠ [] →
        IsGreatest {n | ∃ id, g.IsDistance id n}
          (Metrics.ofGraph g).longestDistance) := by
  constructor
  · intro hnone
    refine Nat.le_zero.mp (longestDistance_le_iff.mpr fun entry hentry => ?_)
    obtain ⟨⟨source, hsource, -⟩, -⟩ := mem_distances_iff.mp hentry
    have hknown := mem_ids_of_mem_sources hsource
    rw [ids, hnone] at hknown
    cases hknown
  · intro hsome
    obtain ⟨id, hlongest⟩ := exists_longest hsome
    refine ⟨⟨id, (mem_distances_iff_isDistance h).mp hlongest⟩, ?_⟩
    rintro n ⟨other, hdistance⟩
    exact longestDistance_le_iff.mp (Nat.le_refl _) _
      ((mem_distances_iff_isDistance h).mpr hdistance)

def twoSources : Graph where
  id := "graph-two-sources"
  specId := "two-sources"
  name := "Two sources"
  nodes := ["a", "b", "c", "d", "e"].map fun id => .bare id .step id
  edges :=
    [("a", "b"), ("a", "b"), ("b", "c"), ("c", "c"), ("c", "d"), ("d", "b"),
      ("e", "d"), ("gone", "a"), ("d", "gone")].map fun (source, target) =>
      .bare (source ++ target) source target .sequence
  metadata := ⟨0, 5, 0, .invalid, none, []⟩

theorem longestDistance_isGreatest_twoSources :
    twoSources.ids.Nodup ∧ twoSources.nodes ≠ [] ∧
      (Metrics.ofGraph twoSources).longestDistance = 2 ∧
      IsGreatest {n | ∃ id, twoSources.IsDistance id n} 2 := by
  have hnodup : twoSources.ids.Nodup := by decide
  have hnodes : twoSources.nodes ≠ [] := by decide
  have hlongest : (Metrics.ofGraph twoSources).longestDistance = 2 := by
    decide +kernel
  have hgreatest := (longestDistance_isGreatest twoSources hnodup).2 hnodes
  rw [hlongest] at hgreatest
  exact ⟨hnodup, hnodes, hlongest, hgreatest⟩

end Workflows.Graph
