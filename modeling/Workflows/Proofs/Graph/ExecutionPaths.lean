import Workflows.Proofs.Graph.Enumeration

/-!
# Execution paths

The ways out that an enumeration finds are the simple paths to the exit, each
once.  A path is told by the turns it takes, the positions of its ids among the
successors of the ids before them, and the ways come in the order of the turns.
-/

namespace Workflows

structure IsSimplePath (successors : String → List String) (entry exit : String)
    (path : List String) : Prop where
  starts : path.head? = some entry
  ends : path.getLast? = some exit
  nodup : path.Nodup
  chain : path.IsChain (Follows successors)

/-- The position of each id among the successors of the id before it. -/
def turns (successors : String → List String) : List String → List Nat
  | id :: next :: rest =>
      (successors id).idxOf next :: turns successors (next :: rest)
  | _ => []

variable {successors : String → List String} {exit : String}

namespace IsSimplePath

theorem cons_of_ne_nil {id : String} {path : List String}
    (h : IsSimplePath successors id exit path) : ∃ rest, path = id :: rest := by
  cases path with
  | nil => cases h.starts
  | cons first rest => exact ⟨rest, by rw [Option.some.inj h.starts]⟩

theorem singleton_iff {id other : String} :
    IsSimplePath successors id exit [other] ↔ other = id ∧ other = exit := by
  constructor
  · intro h
    exact ⟨Option.some.inj h.starts, Option.some.inj h.ends⟩
  · rintro ⟨rfl, rfl⟩
    exact ⟨rfl, rfl, List.nodup_singleton _, .singleton _⟩

theorem cons_cons_iff {id next : String} {rest : List String} :
    IsSimplePath successors id exit (id :: next :: rest) ↔
      next ∈ successors id ∧ id ∉ next :: rest ∧
        IsSimplePath successors next exit (next :: rest) := by
  constructor
  · intro h
    have hchain := List.isChain_cons_cons.mp h.chain
    have hnodup := List.nodup_cons.mp h.nodup
    refine ⟨hchain.1, hnodup.1, rfl, ?_, hnodup.2, hchain.2⟩
    rw [← h.ends, List.getLast?_cons_cons]
  · rintro ⟨hnext, hfresh, h⟩
    refine ⟨rfl, ?_, List.nodup_cons.mpr ⟨hfresh, h.nodup⟩,
      List.isChain_cons_cons.mpr ⟨hnext, h.chain⟩⟩
    rw [List.getLast?_cons_cons, h.ends]

end IsSimplePath

namespace Graph

theorem onward_exit (a : Adjacency) (exit : String) : onward a exit exit = [] :=
  if_pos rfl

theorem onward_of_ne (a : Adjacency) {exit id : String} (h : id ≠ exit) :
    onward a exit id = a.successors id :=
  if_neg h

theorem mem_ids_of_mem_onward {g : Graph} (exit id : String) :
    ∀ next ∈ onward (Adjacency.ofGraph g) exit id, next ∈ g.ids := by
  by_cases heq : id = exit
  · rw [heq, onward_exit]
    exact fun next h => absurd h List.not_mem_nil
  · rw [onward_of_ne _ heq]
    exact fun next h => Adjacency.mem_ids_of_mem_successors h

theorem length_onward_le (g : Graph) (exit id : String) :
    (onward (Adjacency.ofGraph g) exit id).length ≤ g.edges.length := by
  by_cases heq : id = exit
  · rw [heq, onward_exit]
    exact Nat.zero_le _
  · rw [onward_of_ne _ heq]
    exact Adjacency.length_successors_le g id

end Graph

namespace Enumeration

/-! ## The ways out are the simple paths -/

def IsFreshPath (successors : String → List String) (exit : String)
    (visited : List String) (id : String) (way : List String) : Prop :=
  IsSimplePath successors id exit way ∧ ∀ other ∈ way, other ∉ visited

theorem not_isFreshPath_of_mem {visited way : List String} {id : String}
    (h : id ∈ visited) : ¬ IsFreshPath successors exit visited id way := by
  rintro ⟨hpath, hfresh⟩
  exact hfresh id (List.mem_of_head? hpath.starts) h

theorem isFreshPath_iff {visited way : List String} {id : String}
    (hid : id ∉ visited) :
    IsFreshPath successors exit visited id way ↔
      (id = exit ∧ way = [id]) ∨ ∃ next ∈ successors id, ∃ tail,
        IsFreshPath successors exit (id :: visited) next tail ∧
        id :: tail = way := by
  constructor
  · rintro ⟨hpath, hfresh⟩
    obtain ⟨rest, rfl⟩ := hpath.cons_of_ne_nil
    cases rest with
    | nil => exact .inl ⟨(IsSimplePath.singleton_iff.mp hpath).2, rfl⟩
    | cons next rest =>
        obtain ⟨hnext, hnew, htail⟩ := IsSimplePath.cons_cons_iff.mp hpath
        refine .inr ⟨next, hnext, next :: rest, ⟨htail, ?_⟩, rfl⟩
        intro other hother hmem
        rcases List.mem_cons.mp hmem with rfl | hmem
        · exact hnew hother
        · exact hfresh other (List.mem_cons_of_mem _ hother) hmem
  · rintro (⟨heq, rfl⟩ | ⟨next, hnext, tail, ⟨hpath, hfresh⟩, rfl⟩)
    · refine ⟨IsSimplePath.singleton_iff.mpr ⟨rfl, heq⟩, ?_⟩
      simpa using hid
    · obtain ⟨rest, rfl⟩ := hpath.cons_of_ne_nil
      refine ⟨IsSimplePath.cons_cons_iff.mpr ⟨hnext, ?_, hpath⟩, ?_⟩
      · intro hmem
        exact hfresh id hmem List.mem_cons_self
      · intro other hother
        rcases List.mem_cons.mp hother with rfl | hother
        · exact hid
        · exact fun h => hfresh other hother (List.mem_cons_of_mem _ h)

theorem mem_waysOut_succ_iff {visited way : List String} {id : String}
    (hid : id ∉ visited) (bound : Nat) :
    way ∈ waysOut successors exit (bound + 1) visited id ↔
      (id = exit ∧ way = [id]) ∨ ∃ next ∈ successors id, ∃ tail,
        tail ∈ waysOut successors exit bound (id :: visited) next ∧
          id :: tail = way := by
  rw [waysOut_succ hid, List.mem_append, List.mem_map]
  refine or_congr ?_ ?_
  · by_cases heq : id = exit <;> simp [heq]
  · constructor
    · rintro ⟨tail, htail, heq⟩
      obtain ⟨next, hnext, htail⟩ := List.mem_flatMap.mp htail
      exact ⟨next, hnext, tail, htail, heq⟩
    · rintro ⟨next, hnext, tail, htail, heq⟩
      exact ⟨tail, List.mem_flatMap.mpr ⟨next, hnext, htail⟩, heq⟩

theorem mem_waysOut_iff {ids : List String}
    (hclosed : ∀ id, ∀ next ∈ successors id, next ∈ ids) {bound : Nat}
    {visited : List String} {id : String} {way : List String}
    (hbound : (unvisited ids visited).length ≤ bound) (hid : id ∈ ids) :
    way ∈ waysOut successors exit bound visited id ↔
      IsFreshPath successors exit visited id way := by
  induction bound generalizing visited id way with
  | zero =>
      -- nothing is unvisited, so `id` is visited and stands on every path from
      -- it
      have hvisited : id ∈ visited := by
        by_contra hnew
        have := length_unvisited_lt hid hnew
        omega
      exact iff_of_false List.not_mem_nil (not_isFreshPath_of_mem hvisited)
  | succ bound ih =>
      by_cases hvisited : id ∈ visited
      · rw [waysOut_of_mem hvisited]
        exact iff_of_false List.not_mem_nil (not_isFreshPath_of_mem hvisited)
      · have hfewer := length_unvisited_lt hid hvisited
        have hrest (next : String) (hnext : next ∈ successors id)
            (tail : List String) :
            tail ∈ waysOut successors exit bound (id :: visited) next ↔
              IsFreshPath successors exit (id :: visited) next tail :=
          ih (by omega) (hclosed id next hnext)
        rw [mem_waysOut_succ_iff hvisited, isFreshPath_iff hvisited]
        refine or_congr_right (exists_congr fun next => ?_)
        refine and_congr_right fun hnext => exists_congr fun tail => ?_
        rw [hrest next hnext]

theorem cons_of_mem_waysOut {bound : Nat} {visited : List String} {id : String}
    {way : List String} (h : way ∈ waysOut successors exit bound visited id) :
    ∃ rest, way = id :: rest := by
  cases bound with
  | zero => cases h
  | succ bound =>
      by_cases hvisited : id ∈ visited
      · rw [waysOut_of_mem hvisited] at h
        cases h
      · rcases (mem_waysOut_succ_iff hvisited bound).mp h with
          ⟨-, heq⟩ | ⟨next, -, tail, -, heq⟩
        · exact ⟨[], heq⟩
        · exact ⟨tail, heq.symm⟩

theorem waysOut_of_exit_mem {bound : Nat} {visited : List String}
    (h : exit ∈ visited) (id : String) :
    waysOut successors exit bound visited id = [] := by
  induction bound generalizing visited id with
  | zero => rfl
  | succ bound ih =>
      by_cases hvisited : id ∈ visited
      · exact waysOut_of_mem hvisited _
      · have hne : id ≠ exit := fun heq => hvisited (heq ▸ h)
        have hrest : ∀ next ∈ successors id,
            waysOut successors exit bound (id :: visited) next = [] :=
          fun next _ => ih (List.mem_cons_of_mem _ h) next
        rw [waysOut_succ hvisited, if_neg hne,
          List.flatMap_eq_nil_iff.mpr hrest]
        rfl

theorem waysOut_exit {bound : Nat} {visited : List String}
    (h : exit ∉ visited) :
    waysOut successors exit (bound + 1) visited exit = [[exit]] := by
  have hrest : ∀ next ∈ successors exit,
      waysOut successors exit bound (exit :: visited) next = [] :=
    fun next _ => waysOut_of_exit_mem List.mem_cons_self next
  rw [waysOut_succ h, if_pos rfl, List.flatMap_eq_nil_iff.mpr hrest]
  rfl

theorem waysOut_of_ne {bound : Nat} {visited : List String} {id : String}
    (h : id ∉ visited) (hne : id ≠ exit) :
    waysOut successors exit (bound + 1) visited id =
      ((successors id).flatMap
        (waysOut successors exit bound (id :: visited))).map (id :: ·) := by
  rw [waysOut_succ h, if_neg hne, List.nil_append]

theorem waysOut_onward (a : Adjacency) (exit : String) (bound : Nat)
    (visited : List String) (id : String) :
    waysOut (Graph.onward a exit) exit bound visited id =
      waysOut a.successors exit bound visited id := by
  induction bound generalizing visited id with
  | zero => rfl
  | succ bound ih =>
      by_cases hvisited : id ∈ visited
      · rw [waysOut_of_mem hvisited, waysOut_of_mem hvisited]
      · by_cases heq : id = exit
        · rw [heq] at hvisited ⊢
          rw [waysOut_exit hvisited, waysOut_exit hvisited]
        · have hrest :
              waysOut (Graph.onward a exit) exit bound (id :: visited) =
              waysOut a.successors exit bound (id :: visited) :=
            funext fun next => ih (id :: visited) next
          rw [waysOut_of_ne hvisited heq, waysOut_of_ne hvisited heq, hrest,
            Graph.onward_of_ne a heq]

/-! ## The order of the ways out -/

theorem pairwise_idxOf_lt {items : List String} (h : items.Nodup) :
    items.Pairwise fun a b => items.idxOf a < items.idxOf b := by
  rw [List.pairwise_iff_getElem]
  intro i j hi hj hij
  rwa [h.idxOf_getElem, h.idxOf_getElem]

theorem pairwise_turns_waysOut (hnodup : ∀ id, (successors id).Nodup)
    (bound : Nat) (visited : List String) (id : String) :
    ((successors id).flatMap (waysOut successors exit bound visited)).Pairwise
      fun p q => turns successors (id :: p) < turns successors (id :: q) := by
  induction bound generalizing visited id with
  | zero =>
      rw [List.flatMap_eq_nil_iff.mpr fun _ _ => waysOut.eq_1 ..]
      exact .nil
  | succ bound ih =>
      rw [List.pairwise_flatMap]
      constructor
      · intro next _
        by_cases hvisited : next ∈ visited
        · rw [waysOut_of_mem hvisited]
          exact .nil
        · by_cases heq : next = exit
          · rw [heq] at hvisited ⊢
            rw [waysOut_exit hvisited]
            exact List.pairwise_singleton _ _
          · rw [waysOut_of_ne hvisited heq, List.pairwise_map]
            exact (ih (next :: visited) next).imp fun h =>
              List.cons_lt_cons_iff.mpr (.inr ⟨rfl, h⟩)
      · -- ways out of different successors differ in their first turn
        refine (pairwise_idxOf_lt (hnodup id)).imp ?_
        intro first second hlt p hp q hq
        obtain ⟨p, rfl⟩ := cons_of_mem_waysOut hp
        obtain ⟨q, rfl⟩ := cons_of_mem_waysOut hq
        exact List.cons_lt_cons_iff.mpr (.inl hlt)

end Enumeration

/-! ## The paths of a graph -/

namespace Graph

open Enumeration

theorem mem_ids_of_source? {g : Graph} {n : Node} (h : g.source? = some n) :
    n.id ∈ g.ids := by
  refine List.mem_map_of_mem ?_
  unfold source? at h
  cases hstart : g.nodes.find? fun n => n.kind == .start with
  | none =>
      rw [hstart] at h
      exact List.mem_of_head? h
  | some first =>
      rw [hstart] at h
      exact List.mem_of_find?_eq_some (hstart.trans h)

theorem run_enumeration {g : Graph} {entry : String} (hentry : entry ∈ g.ids)
    (exit : String) :
    g.enumeration entry exit =
      ⟨[], [], [], (((onward (Adjacency.ofGraph g) exit entry).flatMap
        (waysOut (Adjacency.ofGraph g).successors exit (g.ids.length - 1)
          [entry])).map (entry :: ·)).reverse⟩ := by
  have hbound : Nat.pow (g.edges.length + 2) (g.ids.length + 1) ≤ g.pathBound :=
    Nat.le_of_eq (by rw [pathBound, ids, List.length_map])
  have hways : waysOut (onward (Adjacency.ofGraph g) exit) exit
      (g.ids.length - 1) [entry] =
        waysOut (Adjacency.ofGraph g).successors exit (g.ids.length - 1)
          [entry] :=
    funext fun next => waysOut_onward (Adjacency.ofGraph g) exit _ _ next
  rw [enumeration,
    run_start (mem_ids_of_mem_onward exit) (length_onward_le g exit) hentry
    hbound, hways]

theorem found_enumeration {g : Graph} {entry exit : String}
    (hentry : entry ∈ g.ids) (hne : entry ≠ exit) :
    (g.enumeration entry exit).found.reverse =
      waysOut (Adjacency.ofGraph g).successors exit g.ids.length [] entry := by
  have hlength : g.ids.length = g.ids.length - 1 + 1 := by
    have := List.length_pos_of_mem hentry
    omega
  rw [hlength, waysOut_of_ne List.not_mem_nil hne, run_enumeration hentry,
    onward_of_ne _ hne, List.reverse_reverse]

theorem executionPaths_of_ends {g : Graph} {entry exit : Node}
    (hentry : g.source? = some entry) (hexit : g.sink? = some exit) :
    g.executionPaths =
      (g.enumeration entry.id exit.id).found.reverse.map fun path =>
      ⟨path, path.countP fun id => (g.idsOf .step).contains id⟩ := by
  rw [executionPaths, hentry, hexit]

theorem map_nodes_executionPaths {g : Graph} {entry exit : Node}
    (hentry : g.source? = some entry) (hexit : g.sink? = some exit)
    (hne : entry.id ≠ exit.id) :
    g.executionPaths.map ExecutionPath.nodes =
      waysOut (Adjacency.ofGraph g).successors exit.id
        g.ids.length [] entry.id := by
  rw [executionPaths_of_ends hentry hexit, List.map_map,
    ← found_enumeration (mem_ids_of_source? hentry) hne]
  exact List.map_id' _

theorem mem_executionPaths_iff {g : Graph} {entry exit : Node}
    (hentry : g.source? = some entry) (hexit : g.sink? = some exit)
    (hne : entry.id ≠ exit.id) (path : List String) :
    path ∈ g.executionPaths.map ExecutionPath.nodes ↔
      IsSimplePath (Adjacency.ofGraph g).successors entry.id exit.id path := by
  rw [map_nodes_executionPaths hentry hexit hne,
    mem_waysOut_iff (fun _ _ => Adjacency.mem_ids_of_mem_successors)
      (List.length_filter_le _ _) (mem_ids_of_source? hentry), IsFreshPath]
  simp

theorem pairwise_turns_executionPaths {g : Graph} {entry exit : Node}
    (hentry : g.source? = some entry) (hexit : g.sink? = some exit)
    (hne : entry.id ≠ exit.id) :
    (g.executionPaths.map ExecutionPath.nodes).Pairwise fun p q =>
      turns (Adjacency.ofGraph g).successors p <
        turns (Adjacency.ofGraph g).successors q := by
  obtain ⟨bound, hbound⟩ : ∃ bound, g.ids.length = bound + 1 :=
    Nat.exists_eq_add_one.mpr
      (List.length_pos_of_mem (mem_ids_of_source? hentry))
  rw [map_nodes_executionPaths hentry hexit hne, hbound,
    waysOut_of_ne List.not_mem_nil hne, List.pairwise_map]
  exact pairwise_turns_waysOut (Adjacency.successors_nodup _) bound _ _

theorem stepCount_of_mem_executionPaths {g : Graph} {path : ExecutionPath}
    (h : path ∈ g.executionPaths) :
    path.stepCount =
      path.nodes.countP fun id => ∃ n ∈ g.nodes, n.id = id ∧
      n.kind = .step := by
  unfold executionPaths at h
  split at h
  · obtain ⟨nodes, -, rfl⟩ := List.mem_map.mp h
    refine List.countP_congr fun id _ => ?_
    simp [idsOf, and_comm, and_assoc]
  · cases h

theorem executionPaths_of_same_ends {g : Graph} {entry exit : Node}
    (hentry : g.source? = some entry) (hexit : g.sink? = some exit)
    (heq : entry.id = exit.id) : g.executionPaths = [] := by
  rw [executionPaths_of_ends hentry hexit, heq,
    run_enumeration (heq ▸ mem_ids_of_source? hentry), onward_exit]
  rfl

/-- The execution paths are the simple paths from the entry to the exit, each
once, in lexicographic order of the turns that they take. -/
theorem executionPaths_exact (g : Graph) :
    (∀ entry exit, g.source? = some entry → g.sink? = some exit →
      entry.id ≠ exit.id →
        (∀ path, path ∈ g.executionPaths.map ExecutionPath.nodes ↔
          IsSimplePath (Adjacency.ofGraph g).successors entry.id exit.id path) ∧
        (g.executionPaths.map ExecutionPath.nodes).Nodup ∧
        (g.executionPaths.map ExecutionPath.nodes).Pairwise (fun p q =>
          turns (Adjacency.ofGraph g).successors p <
            turns (Adjacency.ofGraph g).successors q) ∧
        ∀ path ∈ g.executionPaths, path.stepCount =
          path.nodes.countP fun id => ∃ n ∈ g.nodes,
            n.id = id ∧ n.kind = .step) ∧
    (g.nodes = [] → g.executionPaths = []) ∧
    ∀ entry exit, g.source? = some entry → g.sink? = some exit →
      entry.id = exit.id → g.executionPaths = [] := by
  refine ⟨fun entry exit hentry hexit hne => ?_, fun hnodes => ?_,
    fun entry exit hentry hexit heq =>
    executionPaths_of_same_ends hentry hexit heq⟩
  · have hsorted := pairwise_turns_executionPaths hentry hexit hne
    have hdistinct : (g.executionPaths.map ExecutionPath.nodes).Nodup := by
      refine hsorted.imp ?_
      rintro p q hlt rfl
      exact List.lt_irrefl _ hlt
    exact ⟨mem_executionPaths_iff hentry hexit hne, hdistinct, hsorted,
      fun path hpath => stepCount_of_mem_executionPaths hpath⟩
  · rw [executionPaths, source?, sink?, hnodes]
    rfl

end Graph

end Workflows
