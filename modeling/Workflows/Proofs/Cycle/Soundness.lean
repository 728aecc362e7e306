import Mathlib.Data.List.Nodup
import Workflows.Proofs.Cycle.Search

/-!
# What a cycle search reports

A successor that has a depth is on the path, at that depth.  The frames from
there on, closed by the successor, are therefore a cycle: a walk along
successors that ends where it starts and repeats no other node.
-/

namespace Workflows.Cycle

variable {α : Type} {successors : α → List α}

/-- A simple closed walk among the nodes that the roots lead to. -/
structure IsCycle (successors : α → List α) (roots cycle : List α) :
    Prop where
  two_le_length : 2 ≤ cycle.length
  head?_eq_getLast? : cycle.head? = cycle.getLast?
  dropLast_nodup : cycle.dropLast.Nodup
  walk : cycle.IsChain (Follows successors)
  reachable : ∀ node ∈ cycle, Reachable successors roots node

theorem mem_of_mem_drop_append {walk : List α} {node next : α} {depth : Nat}
    (hplace : walk[depth]? = some next)
    (hnode : node ∈ walk.drop depth ++ [next]) : node ∈ walk := by
  rcases List.mem_append.mp hnode with hnode | hnode
  · exact List.mem_of_mem_drop hnode
  · rw [List.mem_singleton.mp hnode]
    exact List.mem_of_getElem? hplace

theorem isCycle_drop_append {roots walk : List α} {next : α} {depth : Nat}
    (hnodup : walk.Nodup) (hwalk : walk.IsChain (Follows successors))
    (hreach : ∀ node ∈ walk, Reachable successors roots node)
    (hplace : walk[depth]? = some next)
    (hlast : ∀ last ∈ walk.getLast?, Follows successors last next) :
    IsCycle successors roots (walk.drop depth ++ [next]) := by
  obtain ⟨hlt, hnext⟩ := List.getElem?_eq_some_iff.mp hplace
  have hdrop : walk.drop depth = next :: walk.drop (depth + 1) := by
    rw [List.drop_eq_getElem_cons hlt, hnext]
  constructor
  · simp [hdrop]
  · rw [List.getLast?_concat, hdrop, List.cons_append, List.head?_cons]
  · rw [List.dropLast_concat]
    exact hnodup.sublist (List.drop_sublist _ _)
  · refine (hwalk.drop depth).append (.singleton next) ?_
    intro last hmem closing hclosing
    obtain rfl : next = closing := by simpa using hclosing
    refine hlast last ?_
    rwa [List.getLast?_drop, if_neg (by omega)] at hmem
  · intro node hnode
    exact hreach node (mem_of_mem_drop_append hplace hnode)

variable [DecidableEq α]

namespace Search

/-- The depths are the places of the nodes of the frames in the order of the
path, and there are no others. -/
def DepthsExact (s : Search α) : Prop :=
  ∀ node depth, s.depth? node = some depth ↔
    (s.frames.reverse.map Frame.node)[depth]? = some node

theorem DepthsExact.lt_length {s : Search α} (h : s.DepthsExact) {node : α}
    {depth : Nat} (hdepth : s.depth? node = some depth) :
    depth < s.frames.length := by
  obtain ⟨hlt, -⟩ := List.getElem?_eq_some_iff.mp ((h node depth).mp hdepth)
  simpa using hlt

end Search

theorem Consistent.depthsExact {roots : List α} {s : Search α}
    (h : Consistent successors roots s) : s.DepthsExact := by
  intro node depth
  rw [Search.depth?, h.depths_eq, lookup_depthsOf h.path_nodup, Search.path,
    List.map_reverse]

theorem Consistent.notMem_path {roots : List α} {s : Search α}
    (h : Consistent successors roots s) {node : α}
    (hnone : s.depth? node = none) : node ∉ s.path := by
  intro hmem
  obtain ⟨depth, hplace⟩ := List.getElem?_of_mem (List.mem_reverse.mpr hmem)
  rw [Search.path, ← List.map_reverse, ← h.depthsExact node depth] at hplace
  simp [hnone] at hplace

theorem Consistent.isCycle_close {allRoots roots pending entered : List α}
    {node next : α} {below : List (Frame α)} {depths : List (α × Nat)}
    {found : List (List α)} {depth : Nat}
    (h : Consistent successors allRoots
      ⟨roots, ⟨node, next :: pending⟩ :: below, depths, entered, found⟩)
    (hdepth : depths.lookup next = some depth) :
    IsCycle successors allRoots
      (((below.map Frame.node).reverse ++ [node]).drop depth ++ [next]) := by
  have hpath : (below.map Frame.node).reverse ++ [node] =
      (node :: below.map Frame.node).reverse := by simp
  rw [hpath]
  apply isCycle_drop_append
  · exact List.nodup_reverse.mpr h.path_nodup
  · exact List.isChain_reverse.mpr h.path_walk
  · intro other hother
    exact h.entered_reachable other
      (h.path_entered other (List.mem_reverse.mp hother))
  · have hplace := (h.depthsExact next depth).mp hdepth
    rwa [List.map_reverse] at hplace
  · intro last hlast
    obtain rfl : node = last := by simpa using hlast
    exact h.pending_sub _ List.mem_cons_self next List.mem_cons_self

theorem isCycle_of_mem_found_move {roots : List α} {s t : Search α}
    (hmove : Move successors s t) (h : Consistent successors roots s)
    (hfound : ∀ cycle ∈ s.found, IsCycle successors roots cycle) :
    ∀ cycle ∈ t.found, IsCycle successors roots cycle := by
  cases hmove with
  | close hdepth =>
      intro cycle hcycle
      rcases List.mem_cons.mp hcycle with rfl | hcycle
      · exact h.isCycle_close hdepth
      · exact hfound cycle hcycle
  | passRoot | enterRoot | leave | pass | enter => exact hfound

theorem isCycle_of_mem_found (roots : List α) (fuel : Nat) :
    ∀ cycle ∈ ((Search.start roots).run successors fuel).found,
      IsCycle successors roots cycle := by
  let holds (s : Search α) : Prop := Consistent successors roots s ∧
    ∀ cycle ∈ s.found, IsCycle successors roots cycle
  have hstart : holds (Search.start roots) :=
    ⟨.start roots, by simp [Search.start]⟩
  refine (run_keeps holds ?_ fuel hstart).2
  intro s t hmove h
  exact ⟨h.1.move hmove, isCycle_of_mem_found_move hmove h.1 h.2⟩

theorem isCycle_of_mem_find {nodes roots cycle : List α}
    (h : cycle ∈ find successors nodes roots) :
    IsCycle successors roots cycle :=
  isCycle_of_mem_found roots _ cycle (List.mem_reverse.mp h)

/-- At the head of every loop the depths are exact, so that a path closes
within the frames, and all that was found so far are cycles; so is all that a
search reports. -/
theorem find_reports_cycles (successors : α → List α) (roots : List α) :
    (∀ fuel, ((Search.start roots).run successors fuel).DepthsExact) ∧
    (∀ fuel node depth,
      ((Search.start roots).run successors fuel).depth? node = some depth →
        depth < ((Search.start roots).run successors fuel).frames.length) ∧
    ∀ nodes, ∀ cycle ∈ find successors nodes roots,
      IsCycle successors roots cycle := by
  have hexact (fuel : Nat) :
      ((Search.start roots).run successors fuel).DepthsExact :=
    (Consistent.run successors roots fuel).depthsExact
  exact ⟨hexact, fun fuel _ _ hdepth => (hexact fuel).lt_length hdepth,
    fun _ _ hcycle => isCycle_of_mem_find hcycle⟩

example : find (fun n : Nat => [(n + 1) % 4, n / 2]) [0, 1, 2, 3] [2, 0] =
    [[2, 3, 0, 1, 2], [0, 1, 0], [0, 0]] := by decide

end Workflows.Cycle
