import Mathlib.Data.List.Chain
import Workflows.Graph.Cycle
import Workflows.Proofs.Graph.Reachability

/-!
# The moves of a cycle search

A search that is not done makes one of six moves.  `Consistent` holds of a new
search and is kept by every move, so it holds at the head of every loop: the
frames are a walk along successors on which no node repeats, the depths are the
places of its nodes, and each node entered was entered once and is reachable.
A move also takes something away from what is `left` to do, which is why a
search ends within its bound.
-/

namespace Workflows.Cycle

variable {α : Type}

namespace Search

def path (s : Search α) : List α := s.frames.map Frame.node

@[simp] theorem length_path (s : Search α) :
    s.path.length = s.frames.length := by
  simp [path]

theorem closed_eq (s : Search α) (depth : Nat) (closing : α) :
    s.closed depth closing = s.path.reverse.drop depth ++ [closing] := by
  simp [closed, path, List.drop_reverse, List.map_take]

end Search

/-! ## Depths -/

def depthsOf : List α → List (α × Nat)
  | [] => []
  | node :: below => (node, below.length) :: depthsOf below

theorem fst_mem_of_mem_depthsOf {path : List α} {entry : α × Nat}
    (h : entry ∈ depthsOf path) : entry.1 ∈ path := by
  induction path with
  | nil => simp [depthsOf] at h
  | cons node below ih =>
      rcases List.mem_cons.mp h with rfl | h
      · exact List.mem_cons_self
      · exact List.mem_cons_of_mem _ (ih h)

/-! ## Consistent searches -/

/-- Frames, depths and nodes entered belong together. -/
structure Consistent (successors : α → List α) (roots : List α)
    (s : Search α) : Prop where
  depths_eq : s.depths = depthsOf s.path
  path_nodup : s.path.Nodup
  path_walk : s.path.IsChain fun upper lower => Follows successors lower upper
  pending_sub : ∀ frame ∈ s.frames, ∀ next ∈ frame.pending,
    next ∈ successors frame.node
  roots_sub : ∀ root ∈ s.roots, root ∈ roots
  path_entered : ∀ node ∈ s.path, node ∈ s.entered
  entered_nodup : s.entered.Nodup
  entered_reachable : ∀ node ∈ s.entered, Reachable successors roots node

namespace Consistent

variable {successors : α → List α} {allRoots : List α}

theorem start (roots : List α) :
    Consistent successors roots (Search.start roots) where
  depths_eq := rfl
  path_nodup := .nil
  path_walk := .nil
  pending_sub := by simp [Search.start]
  roots_sub := fun _ h => h
  path_entered := by simp [Search.start, Search.path]
  entered_nodup := .nil
  entered_reachable := by simp [Search.start]

theorem enter {s : Search α} (h : Consistent successors allRoots s) {node : α}
    (hnew : node ∉ s.entered) (hreach : Reachable successors allRoots node)
    (hlast : ∀ last ∈ s.path.head?, Follows successors last node) :
    Consistent successors allRoots (s.enter successors node) where
  depths_eq := by
    rw [Search.enter, h.depths_eq, ← s.length_path]
    rfl
  path_nodup := List.nodup_cons.mpr
    ⟨fun hmem => hnew (h.path_entered node hmem), h.path_nodup⟩
  path_walk := List.isChain_cons.mpr ⟨hlast, h.path_walk⟩
  pending_sub := by
    rintro frame (_ | ⟨_, hframe⟩)
    · exact fun next hnext => hnext
    · exact h.pending_sub frame hframe
  roots_sub := h.roots_sub
  path_entered := by
    rintro other (_ | ⟨_, hother⟩)
    · exact List.mem_cons_self
    · exact List.mem_cons_of_mem _ (h.path_entered other hother)
  entered_nodup := List.nodup_cons.mpr ⟨hnew, h.entered_nodup⟩
  entered_reachable := by
    rintro other (_ | ⟨_, hother⟩)
    · exact hreach
    · exact h.entered_reachable other hother

theorem tried {roots pending entered : List α} {node next : α}
    {below : List (Frame α)} {depths : List (α × Nat)}
    {found : List (List α)} (found' : List (List α))
    (h : Consistent successors allRoots
      ⟨roots, ⟨node, next :: pending⟩ :: below, depths, entered, found⟩) :
    Consistent successors allRoots
      ⟨roots, ⟨node, pending⟩ :: below, depths, entered, found'⟩ where
  depths_eq := h.depths_eq
  path_nodup := h.path_nodup
  path_walk := h.path_walk
  pending_sub := by
    rintro frame (_ | ⟨_, hframe⟩) other hother
    · exact h.pending_sub _ List.mem_cons_self other
        (List.mem_cons_of_mem _ hother)
    · exact h.pending_sub frame (List.mem_cons_of_mem _ hframe) other hother
  roots_sub := h.roots_sub
  path_entered := h.path_entered
  entered_nodup := h.entered_nodup
  entered_reachable := h.entered_reachable

theorem next_reachable {roots pending entered : List α} {node next : α}
    {below : List (Frame α)} {depths : List (α × Nat)}
    {found : List (List α)}
    (h : Consistent successors allRoots
      ⟨roots, ⟨node, next :: pending⟩ :: below, depths, entered, found⟩) :
    Reachable successors allRoots next := by
  have hnode : node ∈ entered := h.path_entered node List.mem_cons_self
  have hnext : next ∈ successors node :=
    h.pending_sub _ List.mem_cons_self next List.mem_cons_self
  exact (h.entered_reachable node hnode).next hnext

end Consistent

variable [DecidableEq α]

theorem filter_depthsOf {node : α} {below : List α} (h : node ∉ below) :
    (depthsOf (node :: below)).filter (fun entry => entry.1 ≠ node) =
      depthsOf below := by
  rw [depthsOf, List.filter_cons_of_neg (by simp)]
  refine List.filter_eq_self.mpr fun entry hentry => ?_
  have hmem := fst_mem_of_mem_depthsOf hentry
  simpa using ne_of_mem_of_not_mem hmem h

theorem lookup_depthsOf {path : List α} (h : path.Nodup) (node : α)
    (depth : Nat) :
    (depthsOf path).lookup node = some depth ↔
      path.reverse[depth]? = some node := by
  induction path with
  | nil => simp [depthsOf]
  | cons last below ih =>
      obtain ⟨hlast, hbelow⟩ := List.nodup_cons.mp h
      have hplace : (last :: below).reverse[depth]? = some node ↔
          below.reverse[depth]? = some node ∨
            depth = below.length ∧ last = node := by
        rw [List.reverse_cons]
        rcases Nat.lt_trichotomy depth below.length with hlt | rfl | hgt
        · rw [List.getElem?_append_left (by simpa using hlt)]
          simp [hlt.ne]
        · simp
        · rw [List.getElem?_eq_none (by simp; omega),
            List.getElem?_eq_none (by simp; omega)]
          simp [hgt.ne']
      rw [hplace, depthsOf, List.lookup_cons]
      by_cases heq : node = last
      · subst heq
        have hnone : below.reverse[depth]? ≠ some node := fun hsome =>
          hlast (List.mem_reverse.mp (List.mem_of_getElem? hsome))
        simp [hnone, eq_comm]
      · have : last ≠ node := fun h => heq h.symm
        simp [beq_false_of_ne heq, ih hbelow, this]

/-! ## Moves -/

/-- What one step of a search does: it looks at the next root, or else at the
last frame and the first successor still to be tried there. -/
inductive Move (successors : α → List α) : Search α → Search α → Prop where
  | passRoot {root : α} {roots : List α} {depths : List (α × Nat)}
      {entered : List α} {found : List (List α)} (h : root ∈ entered) :
      Move successors ⟨root :: roots, [], depths, entered, found⟩
        ⟨roots, [], depths, entered, found⟩
  | enterRoot {root : α} {roots : List α} {depths : List (α × Nat)}
      {entered : List α} {found : List (List α)} (h : root ∉ entered) :
      Move successors ⟨root :: roots, [], depths, entered, found⟩
        (Search.enter successors ⟨roots, [], depths, entered, found⟩ root)
  | leave {node : α} {roots : List α} {below : List (Frame α)}
      {depths : List (α × Nat)} {entered : List α} {found : List (List α)} :
      Move successors ⟨roots, ⟨node, []⟩ :: below, depths, entered, found⟩
        ⟨roots, below, depths.filter fun entry => entry.1 ≠ node, entered,
          found⟩
  | close {node next : α} {pending roots : List α} {below : List (Frame α)}
      {depths : List (α × Nat)} {entered : List α} {found : List (List α)}
      {depth : Nat} (h : depths.lookup next = some depth) :
      Move successors
        ⟨roots, ⟨node, next :: pending⟩ :: below, depths, entered, found⟩
        ⟨roots, ⟨node, pending⟩ :: below, depths, entered,
          (((below.map Frame.node).reverse ++ [node]).drop depth ++ [next]) ::
            found⟩
  | pass {node next : α} {pending roots : List α} {below : List (Frame α)}
      {depths : List (α × Nat)} {entered : List α} {found : List (List α)}
      (hpath : depths.lookup next = none) (h : next ∈ entered) :
      Move successors
        ⟨roots, ⟨node, next :: pending⟩ :: below, depths, entered, found⟩
        ⟨roots, ⟨node, pending⟩ :: below, depths, entered, found⟩
  | enter {node next : α} {pending roots : List α} {below : List (Frame α)}
      {depths : List (α × Nat)} {entered : List α} {found : List (List α)}
      (hpath : depths.lookup next = none) (h : next ∉ entered) :
      Move successors
        ⟨roots, ⟨node, next :: pending⟩ :: below, depths, entered, found⟩
        (Search.enter successors
          ⟨roots, ⟨node, pending⟩ :: below, depths, entered, found⟩ next)

theorem step_move {successors : α → List α} {s : Search α}
    (h : s.isDone = false) : Move successors s (s.step successors) := by
  obtain ⟨roots, frames, depths, entered, found⟩ := s
  cases frames with
  | nil =>
      cases roots with
      | nil => simp [Search.isDone] at h
      | cons root roots =>
          by_cases hroot : root ∈ entered
          · simpa [Search.step, hroot] using .passRoot hroot
          · simpa [Search.step, hroot] using .enterRoot hroot
  | cons top below =>
      obtain ⟨node, pending⟩ := top
      cases pending with
      | nil => exact .leave
      | cons next pending =>
          cases hdepth : depths.lookup next with
          | some depth =>
              simpa [Search.step, Search.depth?, hdepth, Search.closed_eq,
                Search.path] using .close hdepth
          | none =>
              by_cases hnext : next ∈ entered
              · simpa [Search.step, Search.depth?, hdepth, hnext] using
                  .pass hdepth hnext
              · simpa [Search.step, Search.depth?, hdepth, hnext] using
                  .enter hdepth hnext

theorem run_keeps {successors : α → List α} (holds : Search α → Prop)
    (keeps : ∀ s t, Move successors s t → holds s → holds t)
    (fuel : Nat) {s : Search α} (h : holds s) :
    holds (s.run successors fuel) := by
  induction fuel generalizing s with
  | zero => exact h
  | succ fuel ih =>
      rw [Search.run]
      cases hdone : s.isDone with
      | true => simpa using h
      | false => simpa using ih (keeps _ _ (step_move hdone) h)

/-! ## What the moves keep -/

theorem Consistent.move {successors : α → List α} {allRoots : List α}
    {s t : Search α} (hmove : Move successors s t)
    (h : Consistent successors allRoots s) :
    Consistent successors allRoots t := by
  cases hmove with
  | passRoot hroot =>
      exact { h with
        roots_sub := fun root hmem =>
          h.roots_sub root (List.mem_cons_of_mem _ hmem) }
  | @enterRoot root roots depths entered found hroot =>
      have hrest : Consistent successors allRoots
          ⟨roots, [], depths, entered, found⟩ :=
        { h with
          roots_sub := fun root hmem =>
            h.roots_sub root (List.mem_cons_of_mem _ hmem) }
      have hreach : Reachable successors allRoots root :=
        .of_root (h.roots_sub root List.mem_cons_self)
      exact hrest.enter hroot hreach (by simp [Search.path])
  | @leave node roots below depths entered found =>
      have hnodup := List.nodup_cons.mp h.path_nodup
      exact {
        depths_eq := by
          rw [show depths = depthsOf (node :: below.map Frame.node) from
            h.depths_eq]
          exact filter_depthsOf hnodup.1
        path_nodup := hnodup.2
        path_walk := h.path_walk.tail
        pending_sub := fun frame hframe =>
          h.pending_sub frame (List.mem_cons_of_mem _ hframe)
        roots_sub := h.roots_sub
        path_entered := fun other hother =>
          h.path_entered other (List.mem_cons_of_mem _ hother)
        entered_nodup := h.entered_nodup
        entered_reachable := h.entered_reachable }
  | close hdepth => exact h.tried _
  | pass hpath hnext => exact h.tried _
  | @enter node next pending roots below depths entered found hpath hnext =>
      refine (h.tried found).enter hnext h.next_reachable ?_
      simpa [Search.path, Follows] using
        h.pending_sub _ List.mem_cons_self next List.mem_cons_self

theorem Consistent.run (successors : α → List α) (roots : List α)
    (fuel : Nat) :
    Consistent successors roots ((Search.start roots).run successors fuel) :=
  run_keeps _ (fun _ _ => Consistent.move) fuel (.start roots)

/-! ## The end of a search -/

def steps (successors : α → List α) (nodes : List α) : Nat :=
  (nodes.map fun node => (successors node).length + 1).sum

/-- The steps left: for the roots, for the frames on the path and for the nodes
that were not entered yet. -/
def left (successors : α → List α) (nodes : List α) (s : Search α) : Nat :=
  s.roots.length +
    (s.frames.map fun frame => frame.pending.length + 1).sum +
    steps successors (unvisited nodes s.entered)

omit [DecidableEq α] in
@[simp] theorem steps_cons (successors : α → List α) (node : α)
    (nodes : List α) :
    steps successors (node :: nodes) =
      (successors node).length + 1 + steps successors nodes := by
  simp [steps]

omit [DecidableEq α] in
theorem bound_eq (successors : α → List α) (nodes roots : List α) :
    bound successors nodes roots = roots.length + steps successors nodes := by
  unfold bound
  generalize roots.length = count
  induction nodes generalizing count with
  | nil => simp [steps]
  | cons node nodes ih =>
      rw [List.foldl_cons, ih, steps_cons]
      omega

theorem left_start (successors : α → List α) (nodes roots : List α) :
    left successors nodes (Search.start roots) =
      bound successors nodes roots := by
  simp [left, bound_eq, unvisited, Search.start]

theorem left_enter (successors : α → List α) {nodes : List α} {s : Search α}
    {node : α} (hnode : node ∈ nodes) (hnew : node ∉ s.entered) :
    left successors nodes (s.enter successors node) ≤
      left successors nodes s := by
  have := sum_map_unvisited_add_le (fun node => (successors node).length + 1)
    hnode hnew
  simp only [left, steps, Search.enter, List.map_cons, List.sum_cons] at this ⊢
  omega

theorem left_move {successors : α → List α} {nodes roots : List α}
    (hnodes : ∀ node, Reachable successors roots node → node ∈ nodes)
    {s t : Search α} (h : Consistent successors roots s)
    (hmove : Move successors s t) :
    left successors nodes t < left successors nodes s := by
  cases hmove with
  | passRoot hroot => simp [left]
  | enterRoot hroot =>
      have hnode := hnodes _ (.of_root (h.roots_sub _ List.mem_cons_self))
      refine (left_enter successors hnode hroot).trans_lt ?_
      simp [left]
  | leave => simp [left]
  | close hdepth => simp [left]
  | pass hpath hnext => simp [left]
  | enter hpath hnext =>
      have hnode := hnodes _ h.next_reachable
      refine (left_enter successors hnode hnext).trans_lt ?_
      simp [left]

theorem run_isDone {successors : α → List α} {nodes roots : List α}
    (hnodes : ∀ node, Reachable successors roots node → node ∈ nodes)
    {fuel : Nat} {s : Search α} (h : Consistent successors roots s)
    (hfuel : left successors nodes s ≤ fuel) :
    (s.run successors fuel).isDone = true := by
  induction fuel generalizing s with
  | zero =>
      have hleft : left successors nodes s = 0 := Nat.le_zero.mp hfuel
      obtain ⟨roots, frames, depths, entered, found⟩ := s
      cases roots <;> cases frames <;>
        simp_all [left, Search.isDone, Search.run]
  | succ fuel ih =>
      rw [Search.run]
      cases hdone : s.isDone with
      | true => simpa using hdone
      | false =>
          have hmove : Move successors s (s.step successors) := step_move hdone
          have hless := left_move hnodes h hmove
          simpa using ih (h.move hmove) (by omega)

theorem search_isDone {successors : α → List α} {nodes roots : List α}
    (hnodes : ∀ node, Reachable successors roots node → node ∈ nodes) :
    (search successors nodes roots).isDone = true :=
  run_isDone hnodes (.start roots) (left_start successors nodes roots).le

end Workflows.Cycle
