import Mathlib.Algebra.BigOperators.Ring.List
import Mathlib.Algebra.Order.BigOperators.Group.List
import Workflows.Analysis.Metrics
import Workflows.Proofs.Number.Quotient

/-!
# Degrees and bottlenecks

Counted edge by edge, each end of an edge adds one to the degree of the node
that it names, so the degrees add up to the ends that name a node.  A node is a
bottleneck if its degree is above the mean of the positive degrees.  The mean is
a rounded quotient, and the comparison with it exact; so there are bottlenecks
just where the positive degrees differ, and never are all connected nodes such.
-/

namespace Workflows

/-! ## Numbers above their mean -/

section

variable {xs : List Nat}

theorem sum_map_mul_length (xs : List Nat) :
    (xs.map fun x => x * xs.length).sum = (xs.map fun _ => xs.sum).sum := by
  rw [List.sum_map_mul_right, List.map_id', List.map_const',
    List.sum_replicate_nat, Nat.mul_comm]

theorem exists_mul_length_le_sum (h : xs ≠ []) :
    ∃ x ∈ xs, x * xs.length ≤ xs.sum :=
  List.exists_le_of_sum_le h _ _ (Nat.le_of_eq (sum_map_mul_length xs))

theorem exists_sum_lt_mul_length_iff :
    (∃ x ∈ xs, xs.sum < x * xs.length) ↔ ∃ x ∈ xs, ∃ y ∈ xs, x ≠ y := by
  constructor
  · rintro ⟨x, hx, habove⟩
    obtain ⟨y, hy, hbelow⟩ := exists_mul_length_le_sum (List.ne_nil_of_mem hx)
    refine ⟨x, hx, y, hy, ?_⟩
    rintro rfl
    omega
  · rintro ⟨x, hx, y, hy, hne⟩
    by_contra hnone
    have hle : ∀ x ∈ xs, x * xs.length ≤ xs.sum := by simpa using hnone
    have hpos : 0 < xs.length := List.length_pos_of_mem hx
    -- of two different numbers the smaller one is below the mean
    have hless : ∃ x ∈ xs, x * xs.length < xs.sum := by
      rcases Nat.lt_or_gt_of_ne hne with hlt | hlt
      · exact ⟨x, hx,
          (Nat.mul_lt_mul_of_pos_right hlt hpos).trans_le (hle y hy)⟩
      · exact ⟨y, hy,
          (Nat.mul_lt_mul_of_pos_right hlt hpos).trans_le (hle x hx)⟩
    exact absurd (sum_map_mul_length xs) (List.sum_lt_sum _ _ hle hless).ne

end

namespace Graph

/-! ## Counting edge by edge -/

def endpoints (g : Graph) : List String :=
  g.edges.flatMap fun e => [e.source, e.target]

def bump (counts : List (String × Nat)) (id : String) : List (String × Nat) :=
  counts.map fun (counted, n) => (counted, if counted = id then n + 1 else n)

/-- Counts for all nodes, from 0 on, in which each edge adds one at its source
and one at its target. -/
def degreeCounts (g : Graph) : List (String × Nat) :=
  g.edges.foldl (fun counts e => bump (bump counts e.source) e.target)
    (g.ids.map fun id => (id, 0))

theorem bump_map (ids : List String) (count : String → Nat) (id : String) :
    bump (ids.map fun counted => (counted, count counted)) id =
      ids.map fun counted => (counted, count counted + [id].count counted) := by
  rw [bump, List.map_map]
  refine List.map_congr_left fun counted _ => ?_
  by_cases heq : counted = id
  · simp [heq]
  · simp [heq, Ne.symm heq]

theorem foldl_bump (ids ends : List String) (count : String → Nat) :
    ends.foldl bump (ids.map fun id => (id, count id)) =
      ids.map fun id => (id, count id + ends.count id) := by
  induction ends generalizing count with
  | nil => rfl
  | cons id ends ih =>
      rw [List.foldl_cons, bump_map, ih]
      refine List.map_congr_left fun counted _ => ?_
      rw [Nat.add_assoc, ← List.count_append, List.singleton_append]

theorem degree_eq_count (g : Graph) (id : String) :
    g.degree id = g.endpoints.count id := by
  rw [degree, endpoints]
  induction g.edges with
  | nil => rfl
  | cons e edges ih =>
      rw [List.flatMap_cons, List.count_append, ← ih]
      simp only [List.countP_cons, List.count_cons, List.count_nil]
      omega

theorem degreeCounts_eq (g : Graph) :
    g.degreeCounts = g.ids.map fun id => (id, g.degree id) := by
  have hends :
      g.degreeCounts =
        g.endpoints.foldl bump (g.ids.map fun id => (id, 0)) := by
    rw [endpoints, List.foldl_flatMap]
    rfl
  rw [hends, foldl_bump]
  simp only [Nat.zero_add, degree_eq_count]

/-! ## The sum of all degrees -/

theorem sum_map_count_singleton (ids : List String) (id : String) :
    (ids.map fun counted => [id].count counted).sum = ids.count id := by
  induction ids with
  | nil => rfl
  | cons first ids ih =>
      rw [List.map_cons, List.sum_cons, ih, List.count_cons, Nat.add_comm]
      by_cases heq : first = id
      · simp [heq]
      · simp [heq, Ne.symm heq]

theorem sum_map_count {ids : List String} (h : ids.Nodup) (ends : List String) :
    (ids.map fun id => ends.count id).sum = ends.countP fun id => id ∈ ids := by
  induction ends with
  | nil => simp
  | cons id ends ih =>
      have hcons (counted : String) :
          (id :: ends).count counted = ends.count counted +
            [id].count counted := by
        rw [← List.singleton_append, List.count_append, Nat.add_comm]
      simp only [hcons, List.sum_map_add, ih, sum_map_count_singleton, h.count,
        List.countP_cons, decide_eq_true_eq]

theorem sum_degrees {g : Graph} (h : g.ids.Nodup) :
    (g.ids.map g.degree).sum = g.endpoints.countP fun id => id ∈ g.ids := by
  rw [← sum_map_count h, funext (degree_eq_count g)]

theorem length_endpoints (g : Graph) :
    g.endpoints.length = 2 * g.edges.length := by
  simp [endpoints, Nat.mul_comm]

/-! ## Connected nodes -/

def connected (g : Graph) : List String :=
  g.ids.filter fun id => 0 < g.degree id

theorem mem_connected {g : Graph} {id : String} :
    id ∈ g.connected ↔ id ∈ g.ids ∧ 0 < g.degree id := by
  simp [connected]

theorem connectedDegrees_eq (g : Graph) :
    g.connectedDegrees = g.connected.map g.degree := by
  have hdegrees : g.nodes.map (fun n => g.degree n.id) =
      g.ids.map g.degree := by
    rw [ids, List.map_map]
    rfl
  rw [connectedDegrees, hdegrees, List.filter_map]
  rfl

theorem length_connected_le_sum (g : Graph) :
    g.connected.length ≤ (g.connected.map g.degree).sum := by
  rw [← List.length_map (f := g.degree)]
  refine List.length_le_sum_of_one_le _ (List.forall_mem_map.mpr fun id hid =>
    ?_)
  exact (mem_connected.mp hid).2

theorem sum_connected_le {g : Graph} (h : g.ids.Nodup) :
    (g.connected.map g.degree).sum ≤ 2 * g.edges.length := by
  calc (g.connected.map g.degree).sum ≤ (g.ids.map g.degree).sum :=
        (List.filter_sublist.map g.degree).sum_le_sum fun _ _ => Nat.zero_le _
    _ = g.endpoints.countP fun id => id ∈ g.ids := sum_degrees h
    _ ≤ g.endpoints.length := List.countP_le_length
    _ = 2 * g.edges.length := length_endpoints g

/-! ## Bottlenecks -/

theorem meanDegree?_of_connected {g : Graph} (h : g.connected ≠ []) :
    g.meanDegree? =
      (Binary64.ofNat (g.connected.map g.degree).sum).div?
        (.ofNat g.connected.length) := by
  have hsome : (g.connected.map g.degree).isEmpty = false := by simpa using h
  simp only [meanDegree?, connectedDegrees_eq, hsome, ← List.sum_eq_foldl,
    List.length_map, Bool.false_eq_true, if_false]

theorem meanDegree?_of_unconnected {g : Graph} (h : g.connected = []) :
    g.meanDegree? = none := by
  simp only [meanDegree?, connectedDegrees_eq, h, List.map_nil,
    List.isEmpty_nil, if_true]

theorem bottlenecks_of_mean {g : Graph} {mean : Binary64}
    (h : g.meanDegree? = some mean) :
    g.bottlenecks = g.ids.filter fun id => mean.lt (.ofNat (g.degree id)) := by
  rw [bottlenecks, h, ids, List.filter_map]
  rfl

theorem bottlenecks_of_unconnected {g : Graph} (h : g.connected = []) :
    g.bottlenecks = [] := by
  rw [bottlenecks, meanDegree?_of_unconnected h]

theorem degree_le (g : Graph) (id : String) :
    g.degree id ≤ 2 * g.edges.length := by
  rw [degree_eq_count, ← length_endpoints]
  exact List.count_le_length

/-- The comparison with the rounded mean is that with the exact one. -/
theorem bottlenecks_eq {g : Graph} (hids : g.ids.Nodup)
    (hedges : g.edges.length < 2 ^ 52) :
    g.bottlenecks = g.ids.filter fun id =>
      (g.connected.map g.degree).sum < g.degree id * g.connected.length := by
  by_cases hconnected : g.connected = []
  · simp [bottlenecks_of_unconnected hconnected, hconnected]
  · have hlength : g.connected.length ≠ 0 := by simpa using hconnected
    have hsum : (g.connected.map g.degree).sum < 2 ^ 53 := by
      have hle := sum_connected_le hids
      omega
    obtain ⟨mean, hmean, hlt⟩ :=
      Binary64.exists_div?_lt_iff hlength (length_connected_le_sum g) hsum
    rw [bottlenecks_of_mean ((meanDegree?_of_connected hconnected).trans hmean)]
    refine List.filter_congr fun id _ => ?_
    have hdegree : g.degree id < 2 ^ 53 := by
      have hle := degree_le g id
      omega
    rw [Bool.eq_iff_iff, decide_eq_true_eq]
    exact hlt _ hdegree

theorem isolated_eq (g : Graph) : g.isolated = g.ids.filter fun id =>
    g.degree id = 0 := by
  rw [isolated, ids, List.filter_map]
  rfl

theorem degree_pos_of_mem_bottlenecks {g : Graph} {id : String}
    (h : id ∈ g.bottlenecks) :
    0 < g.degree id := by
  by_cases hconnected : g.connected = []
  · simp [bottlenecks_of_unconnected hconnected] at h
  · cases hmean : g.meanDegree? with
    | none => simp [bottlenecks, hmean] at h
    | some mean =>
        rw [bottlenecks_of_mean hmean, List.mem_filter] at h
        rw [meanDegree?_of_connected hconnected] at hmean
        refine Nat.pos_of_ne_zero fun hzero => ?_
        have hbelow := Binary64.not_lt_zero (Binary64.negative_div?_ofNat hmean)
        rw [← hzero, h.2] at hbelow
        cases hbelow

theorem mem_bottlenecks_iff {g : Graph} (hids : g.ids.Nodup)
    (hedges : g.edges.length < 2 ^ 52) {id : String} :
    id ∈ g.bottlenecks ↔
      id ∈ g.connected ∧ (g.connected.map g.degree).sum < g.degree id *
        g.connected.length := by
  constructor
  · intro h
    have hpos := degree_pos_of_mem_bottlenecks h
    rw [bottlenecks_eq hids hedges, List.mem_filter, decide_eq_true_eq] at h
    exact ⟨mem_connected.mpr ⟨h.1, hpos⟩, h.2⟩
  · rintro ⟨hconnected, habove⟩
    rw [bottlenecks_eq hids hedges, List.mem_filter, decide_eq_true_eq]
    exact ⟨(mem_connected.mp hconnected).1, habove⟩

theorem exists_connected_notMem_bottlenecks {g : Graph} (hids : g.ids.Nodup)
    (hedges : g.edges.length < 2 ^ 52) (h : g.connected ≠ []) :
    ∃ id ∈ g.connected, id ∉ g.bottlenecks := by
  have hdegrees : g.connected.map g.degree ≠ [] := by simpa using h
  obtain ⟨n, hmem, hle⟩ := exists_mul_length_le_sum hdegrees
  obtain ⟨id, hid, rfl⟩ := List.mem_map.mp hmem
  refine ⟨id, hid, fun hbottleneck => ?_⟩
  have habove := ((mem_bottlenecks_iff hids hedges).mp hbottleneck).2
  rw [List.length_map] at hle
  omega

theorem bottlenecks_ne_nil_iff {g : Graph} (hids : g.ids.Nodup)
    (hedges : g.edges.length < 2 ^ 52) :
    g.bottlenecks ≠ [] ↔ ∃ a ∈ g.connected, ∃ b ∈ g.connected,
      g.degree a ≠ g.degree b := by
  calc g.bottlenecks ≠ [] ↔ ∃ id, id ∈ g.bottlenecks :=
      ⟨List.exists_mem_of_ne_nil _, fun ⟨_, hmem⟩ => List.ne_nil_of_mem hmem⟩
    _ ↔ ∃ n ∈ g.connected.map g.degree,
        (g.connected.map g.degree).sum <
        n * (g.connected.map g.degree).length := by
      simp [mem_bottlenecks_iff hids hedges]
    _ ↔ ∃ m ∈ g.connected.map g.degree, ∃ n ∈ g.connected.map g.degree, m ≠ n :=
      exists_sum_lt_mul_length_iff
    _ ↔ ∃ a ∈ g.connected, ∃ b ∈ g.connected, g.degree a ≠ g.degree b := by simp

/-- Counting edge by edge gives the degrees; they add up to the ends of edges
that name a node.  The isolated nodes are those of degree 0, and none of them is
a bottleneck.  The bottlenecks are the nodes of a degree above the mean of the
positive ones, compared without rounding as long as the degrees are exact
numbers, which they are far beyond `2 ^ 26` edges.  Then some connected node is
not a bottleneck, and there are bottlenecks if and only if the positive degrees
are not all equal. -/
theorem degrees_and_bottlenecks (g : Graph) (h : g.ids.Nodup) :
    g.degreeCounts = g.ids.map (fun id => (id, g.degree id)) ∧
      (g.ids.map g.degree).sum = g.endpoints.countP (fun id => id ∈ g.ids) ∧
      (Metrics.ofGraph g).isolated = g.ids.filter (fun id => g.degree id = 0) ∧
      (∀ id ∈ (Metrics.ofGraph g).bottlenecks,
        id ∉ (Metrics.ofGraph g).isolated) ∧
      (g.edges.length < 2 ^ 52 →
        (Metrics.ofGraph g).bottlenecks = g.ids.filter (fun id =>
          (g.connected.map g.degree).sum < g.degree id * g.connected.length) ∧
        (g.connected ≠ [] → ∃ id ∈ g.connected,
          id ∉ (Metrics.ofGraph g).bottlenecks) ∧
        ((Metrics.ofGraph g).bottlenecks ≠ [] ↔
          ∃ a ∈ g.connected, ∃ b ∈ g.connected, g.degree a ≠ g.degree b)) := by
  refine ⟨degreeCounts_eq g, sum_degrees h, isolated_eq g,
    fun id hbottleneck hisolated => ?_, fun hedges =>
    ⟨bottlenecks_eq h hedges, exists_connected_notMem_bottlenecks h hedges,
      bottlenecks_ne_nil_iff h hedges⟩⟩
  have hpos := degree_pos_of_mem_bottlenecks hbottleneck
  have hzero : g.degree id = 0 := by
    have hmem : id ∈ g.isolated := hisolated
    rw [isolated_eq, List.mem_filter, decide_eq_true_eq] at hmem
    exact hmem.2
  omega

/-- A hub, whose edge from itself to itself counts twice; parallel edges, an
edge to no node and one between no nodes, and a node without edges. -/
def hub : Graph where
  id := "graph-hub"
  specId := "hub"
  name := "Hub"
  nodes := ["hub", "left", "alone", "right"].map fun id => .bare id .step id
  edges := [("hub", "hub"), ("hub", "left"), ("hub", "left"), ("right", "gone"),
    ("gone", "lost")].map fun (source, target) =>
    .bare (source ++ target) source target .sequence
  metadata := ⟨0, 4, 0, .invalid, none, []⟩

theorem degrees_and_bottlenecks_hub :
    hub.ids.Nodup ∧ hub.edges.length < 2 ^ 52 ∧
      hub.degreeCounts = [("hub", 4), ("left", 2), ("alone", 0), ("right", 1)] ∧
      (Metrics.ofGraph hub).isolated = ["alone"] ∧
      (Metrics.ofGraph hub).bottlenecks = ["hub"] := by
  have hids : hub.ids.Nodup := by decide
  have hedges : hub.edges.length < 2 ^ 52 := by decide
  obtain ⟨hcounts, -, hisolated, -, hbottlenecks⟩ :=
    degrees_and_bottlenecks hub hids
  rw [hcounts, hisolated, (hbottlenecks hedges).1]
  exact ⟨hids, hedges, by decide, by decide, by decide⟩

end Graph

end Workflows
