import Mathlib.Data.List.Nodup
import Mathlib.Data.List.Perm.Subperm
import Workflows.Analysis.Metrics
import Workflows.Proofs.Graph.Reachability
import Workflows.Proofs.Graph.Successors

/-!
# Distances from the sources

A breadth-first search leaves ids in the order in which they were reached.  The
distances in its queue never fall and differ by one at most, so the walk on
which an id is first reached is a shortest one from whichever source.  An id is
left once, and there is time to leave every id of the graph.
-/

namespace Workflows

/-! ## Shortest walks -/

/-- The length of a shortest walk from one of the roots. -/
structure LeastWalk {α : Type} (successors : α → List α) (roots : List α)
    (node : α) (n : Nat) : Prop where
  walk : ∃ root ∈ roots, ReachedIn successors root n node
  least : ∀ root ∈ roots, ∀ m, ReachedIn successors root m node → n ≤ m

namespace Graph

/-! ## Sweeping -/

/-- The ids that were left and those that wait, each with its distance. -/
structure Swept (successors : String → List String) (roots : List String)
    (left queue : List (String × Nat)) : Prop where
  nodup : ((left ++ queue).map Prod.fst).Nodup
  walk : ∀ entry ∈ left ++ queue, ∃ root ∈ roots,
    ReachedIn successors root entry.2 entry.1
  root_mem : ∀ root ∈ roots, (root, 0) ∈ left ++ queue
  sorted : queue.Pairwise fun first second => first.2 ≤ second.2
  within : ∀ entry ∈ left ++ queue, ∀ waiting ∈ queue, entry.2 ≤ waiting.2 + 1
  followed : ∀ entry ∈ left, ∀ next ∈ successors entry.1,
    ∃ n ≤ entry.2 + 1, (next, n) ∈ left ++ queue

def freshFrom (successors : String → List String)
    (reached : List (String × Nat)) (entry : String × Nat) :
    List (String × Nat) :=
  ((successors entry.1).filter fun next => (reached.lookup next).isNone).map
    fun next => (next, entry.2 + 1)

variable {successors : String → List String} {roots nodes : List String}
  {left queue : List (String × Nat)} {entry : String × Nat}

theorem sweep_cons (fuel : Nat) (reached : List (String × Nat)) :
    sweep successors (fuel + 1) (entry :: queue) reached =
      sweep successors fuel (queue ++ freshFrom successors reached entry)
        (reached ++ freshFrom successors reached entry) := rfl

theorem lookup_isNone_iff {reached : List (String × Nat)} {id : String} :
    (reached.lookup id).isNone = true ↔ id ∉ reached.map Prod.fst := by
  rw [Option.isNone_iff_eq_none, List.lookup_eq_none_iff]
  constructor
  · rintro h hmem
    obtain ⟨entry, hentry, rfl⟩ := List.mem_map.mp hmem
    simpa using h entry hentry
  · rintro h entry hentry
    refine bne_iff_ne.mpr fun heq => h ?_
    exact heq ▸ List.mem_map_of_mem hentry

theorem mem_freshFrom {reached : List (String × Nat)} {fresh : String × Nat} :
    fresh ∈ freshFrom successors reached entry ↔
      fresh.1 ∈ successors entry.1 ∧ fresh.1 ∉ reached.map Prod.fst ∧
        fresh.2 = entry.2 + 1 := by
  rw [freshFrom, List.mem_map]
  simp only [List.mem_filter, lookup_isNone_iff]
  constructor
  · rintro ⟨next, ⟨hnext, hnew⟩, rfl⟩
    exact ⟨hnext, hnew, rfl⟩
  · rintro ⟨hnext, hnew, hdistance⟩
    exact ⟨fresh.1, ⟨hnext, hnew⟩, Prod.ext rfl hdistance.symm⟩

theorem map_fst_freshFrom (reached : List (String × Nat)) :
    (freshFrom successors reached entry).map Prod.fst =
      (successors entry.1).filter fun next => (reached.lookup next).isNone := by
  rw [freshFrom, List.map_map]
  exact List.map_id' _

namespace Swept

theorem start (successors : String → List String) (roots : List String) :
    Swept successors roots [] ((distinct roots).map fun id => (id, 0)) where
  nodup := by
    rw [List.nil_append, List.map_map]
    exact (List.map_id' _).symm ▸ nodup_distinct roots
  walk := by
    intro entry hentry
    obtain ⟨root, hroot, rfl⟩ := List.mem_map.mp hentry
    exact ⟨root, mem_distinct.mp hroot, .root⟩
  root_mem := fun root hroot =>
    List.mem_map.mpr ⟨root, mem_distinct.mpr hroot, rfl⟩
  sorted :=
    List.pairwise_map.mpr (List.pairwise_of_forall fun _ _ => Nat.le_refl 0)
  within := by
    intro entry hentry waiting _
    obtain ⟨root, -, rfl⟩ := List.mem_map.mp hentry
    exact Nat.zero_le _
  followed := fun _ hentry => absurd hentry List.not_mem_nil

theorem leave (hnodup : ∀ id, (successors id).Nodup)
    (h : Swept successors roots left (entry :: queue)) :
    Swept successors roots (left ++ [entry])
      (queue ++ freshFrom successors (left ++ entry :: queue) entry) := by
  have hall : left ++ [entry] ++
      (queue ++ freshFrom successors (left ++ entry :: queue) entry) =
        (left ++ entry :: queue) ++
          freshFrom successors (left ++ entry :: queue) entry := by
    simp
  have hmem : entry ∈ left ++ entry :: queue := by simp
  obtain ⟨hfirst, hsorted⟩ := List.pairwise_cons.mp h.sorted
  have hbefore : ∀ other ∈ left ++ entry :: queue, other.2 ≤ entry.2 + 1 :=
    fun other hother => h.within other hother entry List.mem_cons_self
  constructor
  case nodup =>
    rw [hall, List.map_append, map_fst_freshFrom]
    refine h.nodup.append ((hnodup _).filter _) ?_
    intro id hid hfresh
    exact lookup_isNone_iff.mp (List.mem_filter.mp hfresh).2 hid
  case walk =>
    rw [hall]
    intro other hother
    rcases List.mem_append.mp hother with hother | hfresh
    · exact h.walk other hother
    · obtain ⟨hnext, -, hdistance⟩ := mem_freshFrom.mp hfresh
      obtain ⟨root, hroot, hwalk⟩ := h.walk entry hmem
      exact ⟨root, hroot, hdistance ▸ hwalk.next hnext⟩
  case root_mem =>
    rw [hall]
    exact fun root hroot => List.mem_append_left _ (h.root_mem root hroot)
  case sorted =>
    refine List.pairwise_append.mpr ⟨hsorted, ?_, ?_⟩
    · refine List.pairwise_of_forall_mem_list fun first hone second hother => ?_
      exact Nat.le_of_eq
        ((mem_freshFrom.mp hone).2.2.trans (mem_freshFrom.mp hother).2.2.symm)
    · intro waiting hwaiting fresh hfresh
      rw [(mem_freshFrom.mp hfresh).2.2]
      exact hbefore waiting (by simp [hwaiting])
  case within =>
    -- the id that is left lies between what was reached before it and what
    -- waits behind it
    rw [hall]
    intro other hother waiting hwaiting
    have hother : other.2 ≤ entry.2 + 1 := by
      rcases List.mem_append.mp hother with hother | hfresh
      · exact hbefore other hother
      · exact Nat.le_of_eq (mem_freshFrom.mp hfresh).2.2
    have hwaiting : entry.2 ≤ waiting.2 := by
      rcases List.mem_append.mp hwaiting with hwaiting | hfresh
      · exact hfirst waiting hwaiting
      · exact (mem_freshFrom.mp hfresh).2.2 ▸ Nat.le_succ _
    omega
  case followed =>
    rw [hall]
    intro other hother next hnext
    rcases List.mem_append.mp hother with hother | hother
    · obtain ⟨n, hn, hnext⟩ := h.followed other hother next hnext
      exact ⟨n, hn, List.mem_append_left _ hnext⟩
    · obtain rfl := List.mem_singleton.mp hother
      by_cases hreached : next ∈ (left ++ other :: queue).map Prod.fst
      · obtain ⟨⟨next, n⟩, hentry, rfl⟩ := List.mem_map.mp hreached
        exact ⟨n, hbefore _ hentry, List.mem_append_left _ hentry⟩
      · exact ⟨other.2 + 1, Nat.le_refl _,
          List.mem_append_right _ (mem_freshFrom.mpr ⟨hnext, hreached, rfl⟩)⟩

theorem length_left_le (h : Swept successors roots left queue)
    (hroots : ∀ root ∈ roots, root ∈ nodes)
    (hclosed : ∀ id, ∀ next ∈ successors id, next ∈ nodes) :
    left.length ≤ nodes.length := by
  have hsubset : left.map Prod.fst ⊆ nodes := by
    intro id hid
    obtain ⟨⟨id, n⟩, hentry, rfl⟩ := List.mem_map.mp hid
    obtain ⟨root, hroot, hwalk⟩ :=
      h.walk (id, n) (List.mem_append_left _ hentry)
    cases hwalk with
    | root => exact hroots _ hroot
    | next _ hnext => exact hclosed _ _ hnext
  have hnodup : (left.map Prod.fst).Nodup := by
    have hnodup := h.nodup
    rw [List.map_append] at hnodup
    exact (List.nodup_append.mp hnodup).1
  rw [← List.length_map Prod.fst]
  exact (List.subperm_of_subset hnodup hsubset).length_le

theorem sweep (hnodup : ∀ id, (successors id).Nodup)
    (hroots : ∀ root ∈ roots, root ∈ nodes)
    (hclosed : ∀ id, ∀ next ∈ successors id, next ∈ nodes) {fuel : Nat}
    (hfuel : nodes.length < left.length + fuel)
    (h : Swept successors roots left queue) :
    Swept successors roots (Graph.sweep successors fuel queue (left ++ queue))
      [] := by
  induction fuel generalizing left queue with
  | zero =>
      have hle := h.length_left_le hroots hclosed
      omega
  | succ fuel ih =>
      cases queue with
      | nil =>
          rw [List.append_nil]
          exact h
      | cons entry queue =>
          have hrest := ih (by simp; omega) (h.leave hnodup)
          rw [sweep_cons]
          simpa using hrest

theorem exists_entry (h : Swept successors roots left []) {root node : String}
    (hroot : root ∈ roots) {n : Nat}
    (hwalk : ReachedIn successors root n node) :
    ∃ m ≤ n, (node, m) ∈ left := by
  induction hwalk with
  | root =>
      have hmem := h.root_mem root hroot
      rw [List.append_nil] at hmem
      exact ⟨0, Nat.le_refl 0, hmem⟩
  | next _ hnext ih =>
      obtain ⟨m, hm, hmem⟩ := ih
      obtain ⟨m', hm', hmem'⟩ := h.followed _ hmem _ hnext
      rw [List.append_nil] at hmem'
      exact ⟨m', by omega, hmem'⟩

theorem mem_iff (h : Swept successors roots left []) {id : String} {n : Nat} :
    (id, n) ∈ left ↔ LeastWalk successors roots id n := by
  have hnodup := h.nodup
  have hwalks := h.walk
  rw [List.append_nil] at hnodup hwalks
  constructor
  · intro hmem
    refine ⟨hwalks _ hmem, fun root hroot m hwalk => ?_⟩
    obtain ⟨m', hm', hmem'⟩ := h.exists_entry hroot hwalk
    have heq := List.inj_on_of_nodup_map hnodup hmem hmem' rfl
    exact (Prod.mk.inj heq).2 ▸ hm'
  · rintro ⟨⟨root, hroot, hwalk⟩, hleast⟩
    obtain ⟨m, hm, hmem⟩ := h.exists_entry hroot hwalk
    obtain ⟨root', hroot', hwalk'⟩ := hwalks _ hmem
    obtain rfl := Nat.le_antisymm hm (hleast root' hroot' m hwalk')
    exact hmem

end Swept

end Graph

/-! ## Nodes that are entered -/

namespace Adjacency

theorem ids_foldl_insert (edges : List Edge) (a : Adjacency) :
    (edges.foldl (fun a e => a.insert e.source e.target) a).vertices.map
      Vertex.id = a.vertices.map Vertex.id := by
  induction edges generalizing a with
  | nil => rfl
  | cons e edges ih => rw [List.foldl_cons, ih, ids_insert]

theorem ids_ofGraph (g : Graph) :
    (ofGraph g).vertices.map Vertex.id = g.ids := by
  rw [ofGraph, ids_foldl_insert, ids_new]

def isEntered (a : Adjacency) (id : String) : Bool :=
  ((a.vertices.find? fun v => v.id == id).map Vertex.isEntered).getD false

theorem isEntered_insert {a : Adjacency} {source target : String}
    (hsource : a.contains source = true) (htarget : a.contains target = true)
    (id : String) :
    (a.insert source target).isEntered id =
      (target == id || a.isEntered id) := by
  have hleading : Vertex.isEntered ∘ Vertex.leadingTo target =
      Vertex.isEntered := rfl
  rw [insert_eq hsource htarget, isEntered, isEntered,
    Vertex.find?_updateFirst (by simp), Vertex.find?_updateFirst (by simp)]
  by_cases heq : target = id
  · subst heq
    obtain ⟨v, hv⟩ := exists_find?_of_contains htarget
    by_cases hself : source = target <;> simp [hv, hself, Vertex.entered]
  · by_cases hself : source = id <;> simp [heq, hself, hleading]

theorem isEntered_foldl_insert (g : Graph) (id : String) (edges : List Edge)
    {a : Adjacency} (hids : a.vertices.map Vertex.id = g.ids) :
    (edges.foldl (fun a e => a.insert e.source e.target) a).isEntered id =
      ((edges.any fun e => e.target == id && g.hasNode e.source &&
        g.hasNode e.target) ||
        a.isEntered id) := by
  induction edges generalizing a with
  | nil => rfl
  | cons e edges ih =>
      rw [List.foldl_cons, ih ((ids_insert a e.source e.target).trans hids),
        List.any_cons]
      by_cases hknown : a.contains e.source = true ∧ a.contains e.target = true
      · rw [isEntered_insert hknown.1 hknown.2]
        rw [contains_eq hids, contains_eq hids] at hknown
        rw [hknown.1, hknown.2, Bool.and_true, Bool.and_true, Bool.or_assoc,
          Bool.or_left_comm]
      · rw [insert_eq_self hknown]
        rw [contains_eq hids, contains_eq hids] at hknown
        have hends : (g.hasNode e.source && g.hasNode e.target) = false := by
          simpa using hknown
        rw [Bool.and_assoc, hends, Bool.and_false, Bool.false_or]

theorem isEntered_ofGraph (g : Graph) (id : String) :
    (ofGraph g).isEntered id =
      g.edges.any fun e => e.target == id && g.hasNode e.source &&
        g.hasNode e.target := by
  have hnew : isEntered ⟨g.ids.map fun id => ⟨id, [], false⟩⟩ id = false :=
    getD_find?_new (fun _ => rfl) g id
  rw [ofGraph, isEntered_foldl_insert g id g.edges (ids_new g), hnew,
    Bool.or_false]

theorem mem_successors_iff {g : Graph} {id next : String} :
    next ∈ (ofGraph g).successors id ↔ ∃ e ∈ g.edges,
      e.source = id ∧ e.target = next ∧
      g.hasNode e.source = true ∧ g.hasNode e.target = true := by
  rw [successors_ofGraph, mem_distinct, List.mem_map]
  simp only [Graph.edgesFrom, List.mem_filter, Bool.and_eq_true, beq_iff_eq]
  constructor
  · rintro ⟨e, ⟨he, ⟨hid, hsource⟩, htarget⟩, hnext⟩
    exact ⟨e, he, hid, hnext, hsource, htarget⟩
  · rintro ⟨e, he, hid, hnext, hsource, htarget⟩
    exact ⟨e, ⟨he, ⟨hid, hsource⟩, htarget⟩, hnext⟩

theorem isEntered_eq_false_iff {g : Graph} {id : String} :
    (ofGraph g).isEntered id = false ↔ ∀ node, id ∉
      (ofGraph g).successors node := by
  rw [isEntered_ofGraph, List.any_eq_false]
  simp only [Bool.and_eq_true, beq_iff_eq, mem_successors_iff]
  constructor
  · rintro h node ⟨e, he, -, hid, hsource, htarget⟩
    exact h e he ⟨⟨hid, hsource⟩, htarget⟩
  · rintro h e he ⟨⟨hid, hsource⟩, htarget⟩
    exact h e.source ⟨e, he, rfl, hid, hsource, htarget⟩

theorem mem_ids_of_mem_roots {g : Graph} {id : String}
    (h : id ∈ (ofGraph g).roots) :
    id ∈ g.ids := by
  obtain ⟨v, hv, rfl⟩ := List.mem_map.mp h
  rw [← ids_ofGraph]
  exact List.mem_map_of_mem (List.mem_of_mem_filter hv)

theorem mem_roots_iff {g : Graph} {id : String} (h : g.ids.count id = 1) :
    id ∈ (ofGraph g).roots ↔ (ofGraph g).isEntered id = false := by
  obtain ⟨v, hv⟩ : ∃ v, (ofGraph g).vertices.filter (fun v => v.id == id) =
      [v] := by
    rw [← List.length_eq_one_iff, ← List.countP_eq_length_filter, ← h,
      ← ids_ofGraph, List.count_eq_countP, List.countP_map]
    rfl
  have hfind : (ofGraph g).vertices.find? (fun v => v.id == id) = some v := by
    rw [← List.head?_filter, hv]
    rfl
  rw [roots, isEntered, hfind, List.mem_map]
  constructor
  · rintro ⟨u, hu, rfl⟩
    obtain ⟨hmem, hentered⟩ := List.mem_filter.mp hu
    have hu : u ∈ (ofGraph g).vertices.filter fun v => v.id == u.id :=
      List.mem_filter.mpr ⟨hmem, BEq.rfl⟩
    rw [hv, List.mem_singleton] at hu
    simpa [← hu] using hentered
  · intro hentered
    have hmem : v ∈ (ofGraph g).vertices.filter fun v => v.id == id := by
      rw [hv]
      exact List.mem_singleton_self v
    obtain ⟨hmem, hid⟩ := List.mem_filter.mp hmem
    exact ⟨v, List.mem_filter.mpr ⟨hmem, by simpa using hentered⟩,
      beq_iff_eq.mp hid⟩

end Adjacency

/-! ## The distances of a graph -/

namespace Graph

theorem mem_ids_of_mem_sources {g : Graph} {id : String}
    (h : id ∈ sources (Adjacency.ofGraph g) g) : id ∈ g.ids := by
  rw [sources] at h
  split at h
  · exact List.mem_of_mem_take h
  · exact Adjacency.mem_ids_of_mem_roots h

theorem mem_distances_iff {g : Graph} {id : String} {n : Nat} :
    (id, n) ∈ g.distances ↔ LeastWalk (Adjacency.ofGraph g).successors
      (sources (Adjacency.ofGraph g) g) id n := by
  have hfuel : g.ids.length < ([] : List (String × Nat)).length +
      (g.nodes.length + 1) := by
    simp [ids]
  have hswept := (Swept.start (Adjacency.ofGraph g).successors
    (sources (Adjacency.ofGraph g) g)).sweep (Adjacency.successors_nodup _)
    (fun _ => mem_ids_of_mem_sources) (fun _ _ =>
      Adjacency.mem_ids_of_mem_successors) hfuel
  exact hswept.mem_iff

theorem foldl_max_le_iff {values : List Nat} {least bound : Nat} :
    values.foldl max least ≤ bound ↔ least ≤ bound ∧ ∀ value ∈ values,
      value ≤ bound := by
  induction values generalizing least with
  | nil => simp
  | cons value values ih =>
      rw [List.foldl_cons, ih, Nat.max_le, List.forall_mem_cons, and_assoc]

theorem longestDistance_le_iff {g : Graph} {n : Nat} :
    g.longestDistance ≤ n ↔ ∀ entry ∈ g.distances, entry.2 ≤ n := by
  rw [longestDistance, foldl_max_le_iff, List.forall_mem_map]
  exact and_iff_right (Nat.zero_le n)

end Graph

end Workflows
