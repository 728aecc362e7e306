import Workflows.Proofs.Cycle.Soundness

/-!
# No cycle escapes a search

A search leaves a node only after all its successors.  In the order of leaving,
newest first, every edge therefore leads to a later place, the edges aside that
close a found cycle: without these no walk returns to its start.
-/

namespace Workflows.Cycle

variable {α : Type} {successors : α → List α}

def Closes (cycles : List (List α)) (node next : α) : Prop :=
  ∃ cycle ∈ cycles, ∃ front, cycle = front ++ [node, next]

theorem Closes.cons {cycles : List (List α)} {node next : α}
    (h : Closes cycles node next) (cycle : List α) :
    Closes (cycle :: cycles) node next := by
  obtain ⟨closed, hclosed, front⟩ := h
  exact ⟨closed, List.mem_cons_of_mem _ hclosed, front⟩

/-! ## The order of leaving -/

/-- Each successor of a node left was left before it, or closes a cycle. -/
def Settled (successors : α → List α) (found : List (List α)) :
    List α → Prop
  | [] => True
  | node :: earlier =>
      (∀ next ∈ successors node, next ∈ earlier ∨ Closes found node next) ∧
        Settled successors found earlier

/-- Each successor of a node on the path is still to be tried, was entered from
it and not left since, was left, or closes a cycle. -/
def Explored (successors : α → List α) (found : List (List α))
    (left : List α) : Option α → List (Frame α) → Prop
  | _, [] => True
  | above, frame :: below =>
      (∀ next ∈ successors frame.node, next ∈ frame.pending ∨
        above = some next ∨ next ∈ left ∨ Closes found frame.node next) ∧
        Explored successors found left (some frame.node) below

theorem Settled.mem {found : List (List α)} {left : List α}
    (h : Settled successors found left) {node next : α} (hnode : node ∈ left)
    (hnext : next ∈ successors node) :
    next ∈ left ∨ Closes found node next := by
  induction left with
  | nil => simp at hnode
  | cons first earlier ih =>
      rcases List.mem_cons.mp hnode with rfl | hnode
      · exact (h.1 next hnext).imp_left (List.mem_cons_of_mem _)
      · exact (ih h.2 hnode).imp_left (List.mem_cons_of_mem _)

theorem Settled.cons_found {found : List (List α)} {left : List α}
    (h : Settled successors found left) (cycle : List α) :
    Settled successors (cycle :: found) left := by
  induction left with
  | nil => trivial
  | cons node earlier ih =>
      obtain ⟨hnode, hearlier⟩ := h
      refine ⟨fun next hnext => ?_, ih hearlier⟩
      exact (hnode next hnext).imp_right fun hcloses => hcloses.cons cycle

theorem Explored.mono {found found' : List (List α)} {left left' : List α}
    (hfound : ∀ node next, Closes found node next → Closes found' node next)
    (hleft : ∀ node ∈ left, node ∈ left') {above : Option α}
    {frames : List (Frame α)}
    (h : Explored successors found left above frames) :
    Explored successors found' left' above frames := by
  induction frames generalizing above with
  | nil => trivial
  | cons frame below ih =>
      obtain ⟨hframe, hbelow⟩ := h
      refine ⟨fun next hnext => ?_, ih hbelow⟩
      rcases hframe next hnext with h | h | h | h
      · exact .inl h
      · exact .inr (.inl h)
      · exact .inr (.inr (.inl (hleft next h)))
      · exact .inr (.inr (.inr (hfound frame.node next h)))

theorem Explored.cons_found {found : List (List α)} {left : List α}
    {above : Option α} {frames : List (Frame α)}
    (h : Explored successors found left above frames) (cycle : List α) :
    Explored successors (cycle :: found) left above frames :=
  h.mono (fun _ _ hcloses => hcloses.cons cycle) fun _ hleft => hleft

theorem Explored.leave {found : List (List α)} {left : List α} {node : α}
    {frames : List (Frame α)}
    (h : Explored successors found left (some node) frames) :
    Explored successors found (node :: left) none frames := by
  cases frames with
  | nil => trivial
  | cons frame below =>
      have hlarger : Explored successors found (node :: left) (some node)
          (frame :: below) :=
        h.mono (fun _ _ hcloses => hcloses) fun _ => List.mem_cons_of_mem _
      obtain ⟨hframe, hbelow⟩ := hlarger
      refine ⟨fun next hnext => ?_, hbelow⟩
      rcases hframe next hnext with h | h | h | h
      · exact .inl h
      · obtain rfl : node = next := Option.some.inj h
        exact .inr (.inr (.inl List.mem_cons_self))
      · exact .inr (.inr (.inl h))
      · exact .inr (.inr (.inr h))

theorem Explored.tried {found : List (List α)} {left : List α}
    {above : Option α} {node first : α} {pending : List α}
    {below : List (Frame α)}
    (h : Explored successors found left none (⟨node, first :: pending⟩ ::
      below))
    (hfirst : above = some first ∨ first ∈ left ∨ Closes found node first) :
    Explored successors found left above (⟨node, pending⟩ :: below) := by
  obtain ⟨hnode, hbelow⟩ := h
  refine ⟨fun next hnext => ?_, hbelow⟩
  rcases hnode next hnext with hpending | habove | hrest
  · rcases List.mem_cons.mp hpending with rfl | hpending
    · exact .inr hfirst
    · exact .inl hpending
  · exact absurd habove (by simp)
  · exact .inr (.inr hrest)

/-- The nodes entered are those left, newest first, and those on the path. -/
structure LeftInOrder (successors : α → List α) (allRoots left : List α)
    (s : Search α) : Prop where
  entered_perm : s.entered.Perm (left ++ s.path)
  settled : Settled successors s.found left
  explored : Explored successors s.found left none s.frames
  roots_entered : ∀ root ∈ allRoots, root ∈ s.roots ∨ root ∈ s.entered
  found_entered : ∀ cycle ∈ s.found, ∀ node ∈ cycle, node ∈ s.entered

namespace LeftInOrder

variable {allRoots left : List α}

theorem start (roots : List α) :
    LeftInOrder successors roots [] (Search.start roots) where
  entered_perm := .refl []
  settled := trivial
  explored := trivial
  roots_entered := fun _ h => .inl h
  found_entered := by simp [Search.start]

theorem enter {s : Search α} {node : α}
    (hperm : s.entered.Perm (left ++ s.path))
    (hsettled : Settled successors s.found left)
    (hexplored : Explored successors s.found left (some node) s.frames)
    (hroots : ∀ root ∈ allRoots,
      root ∈ s.roots ∨ root ∈ node :: s.entered)
    (hfound : ∀ cycle ∈ s.found, ∀ other ∈ cycle, other ∈ s.entered) :
    LeftInOrder successors allRoots left (s.enter successors node) where
  entered_perm := (hperm.cons node).trans List.perm_middle.symm
  settled := hsettled
  explored := ⟨fun _ hnext => .inl hnext, hexplored⟩
  roots_entered := hroots
  found_entered := fun cycle hcycle other hother =>
    List.mem_cons_of_mem _ (hfound cycle hcycle other hother)

variable [DecidableEq α]

theorem move {s t : Search α} (hmove : Move successors s t)
    (hs : Consistent successors allRoots s)
    (h : LeftInOrder successors allRoots left s) :
    ∃ left, LeftInOrder successors allRoots left t := by
  cases hmove with
  | passRoot hroot =>
      refine ⟨left, { h with roots_entered := fun other hother => ?_ }⟩
      rcases h.roots_entered other hother with hmem | hmem
      · rcases List.mem_cons.mp hmem with rfl | hmem
        · exact .inr hroot
        · exact .inl hmem
      · exact .inr hmem
  | enterRoot hroot =>
      refine ⟨left, enter h.entered_perm h.settled trivial ?_ h.found_entered⟩
      intro other hother
      rcases h.roots_entered other hother with hmem | hmem
      · rcases List.mem_cons.mp hmem with rfl | hmem
        · exact .inr List.mem_cons_self
        · exact .inl hmem
      · exact .inr (List.mem_cons_of_mem _ hmem)
  | @leave node roots below depths entered found =>
      obtain ⟨hnode, hbelow⟩ := h.explored
      refine ⟨node :: left, {
        entered_perm := h.entered_perm.trans List.perm_middle
        settled := ⟨fun next hnext => ?_, h.settled⟩
        explored := hbelow.leave
        roots_entered := h.roots_entered
        found_entered := h.found_entered }⟩
      rcases hnode next hnext with hmem | hmem | hmem
      · simp at hmem
      · simp at hmem
      · exact hmem
  | @close node next pending roots below depths entered found depth hdepth =>
      have hplace := (hs.depthsExact next depth).mp hdepth
      have hlast : Closes (
          (((below.map Frame.node).reverse ++ [node]).drop depth ++ [next]) ::
            found) node next := by
        refine ⟨_, List.mem_cons_self,
          (below.map Frame.node).reverse.drop depth, ?_⟩
        have hlt := hs.depthsExact.lt_length hdepth
        rw [List.drop_append_of_le_length
          (by simpa using Nat.le_of_lt_succ hlt)]
        simp
      refine ⟨left, {
        entered_perm := h.entered_perm
        settled := h.settled.cons_found _
        explored := (h.explored.cons_found _).tried (.inr (.inr hlast))
        roots_entered := h.roots_entered
        found_entered := ?_ }⟩
      intro cycle hcycle other hother
      rcases List.mem_cons.mp hcycle with rfl | hcycle
      · refine hs.path_entered other (List.mem_reverse.mp ?_)
        rw [Search.path, ← List.map_reverse]
        refine mem_of_mem_drop_append hplace ?_
        simpa using hother
      · exact h.found_entered cycle hcycle other hother
  | @pass node next pending roots below depths entered found hpath hnext =>
      have hleft : next ∈ left := by
        have hmem := h.entered_perm.mem_iff.mp hnext
        exact (List.mem_append.mp hmem).resolve_right (hs.notMem_path hpath)
      exact ⟨left, { h with explored := h.explored.tried (.inr (.inl hleft)) }⟩
  | enter hpath hnext =>
      refine ⟨left, enter h.entered_perm h.settled
        (h.explored.tried (.inl rfl)) ?_ h.found_entered⟩
      intro other hother
      exact (h.roots_entered other hother).imp_right (List.mem_cons_of_mem _)

end LeftInOrder

theorem LeftInOrder.mem_of_reachable {roots left : List α} {s : Search α}
    (h : LeftInOrder successors roots left s) (hdone : s.isDone = true)
    {node : α} (hnode : Reachable successors roots node) : node ∈ left := by
  obtain ⟨hroots, hframes⟩ : s.roots = [] ∧ s.frames = [] := by
    simpa [Search.isDone] using hdone
  have hentered (other : α) : other ∈ s.entered ↔ other ∈ left := by
    rw [h.entered_perm.mem_iff]
    simp [Search.path, hframes]
  refine hnode.mem (fun root hroot => ?_) (fun other hother next hnext => ?_)
  · exact (hentered root).mp ((h.roots_entered root hroot).resolve_left
      (by simp [hroots]))
  · by_cases hopen : Closes s.found other next
    · obtain ⟨cycle, hcycle, front, rfl⟩ := hopen
      exact (hentered next).mp (h.found_entered _ hcycle next (by simp))
    · exact (h.settled.mem hother hnext).resolve_right hopen

variable [DecidableEq α]

theorem exists_leftInOrder (successors : α → List α) (roots : List α)
    (fuel : Nat) :
    ∃ left, LeftInOrder successors roots left
      ((Search.start roots).run successors fuel) := by
  let holds (s : Search α) : Prop := Consistent successors roots s ∧
    ∃ left, LeftInOrder successors roots left s
  have hstart : holds (Search.start roots) :=
    ⟨.start roots, [], .start roots⟩
  refine (run_keeps holds ?_ fuel hstart).2
  rintro s t hmove ⟨hs, left, hleft⟩
  exact ⟨hs.move hmove, hleft.move hmove hs⟩

/-! ## Edges that close no cycle -/

theorem Settled.idxOf_lt {found : List (List α)} {left : List α}
    (h : Settled successors found left) (hnodup : left.Nodup) {node next : α}
    (hnode : node ∈ left) (hnext : next ∈ successors node)
    (hopen : ¬ Closes found node next) :
    next ∈ left ∧ left.idxOf node < left.idxOf next := by
  induction left with
  | nil => simp at hnode
  | cons first earlier ih =>
      obtain ⟨hfirst, hearlier⟩ := h
      obtain ⟨hnew, hnodup⟩ := List.nodup_cons.mp hnodup
      have hlater (hmem : next ∈ earlier) :
          (first :: earlier).idxOf next = earlier.idxOf next + 1 :=
        List.idxOf_cons_ne _ (ne_of_mem_of_not_mem hmem hnew).symm
      by_cases heq : node = first
      · subst heq
        have hmem := (hfirst next hnext).resolve_right hopen
        refine ⟨List.mem_cons_of_mem _ hmem, ?_⟩
        rw [hlater hmem, List.idxOf_cons_self]
        omega
      · have hnode := List.mem_of_ne_of_mem heq hnode
        obtain ⟨hmem, hlt⟩ := ih hearlier hnodup hnode
        refine ⟨List.mem_cons_of_mem _ hmem, ?_⟩
        rw [hlater hmem, List.idxOf_cons_ne _ (Ne.symm heq)]
        omega

/-- An edge among the nodes that the roots lead to which closes no cycle. -/
def OpenEdge (successors : α → List α) (roots : List α)
    (cycles : List (List α)) (node next : α) : Prop :=
  Reachable successors roots node ∧ Follows successors node next ∧
    ¬ Closes cycles node next

theorem not_transGen_openEdge {nodes roots : List α}
    (hnodes : ∀ node, Reachable successors roots node → node ∈ nodes)
    (node : α) :
    ¬ Relation.TransGen
        (OpenEdge successors roots (find successors nodes roots)) node
        node := by
  obtain ⟨left, hleft⟩ :=
    exists_leftInOrder successors roots (bound successors nodes roots)
  have hdone := search_isDone hnodes
  have hnodup : left.Nodup := by
    have hentered := (Consistent.run successors roots
      (bound successors nodes roots)).entered_nodup
    exact (List.nodup_append.mp (hleft.entered_perm.nodup_iff.mp hentered)).1
  have hlater {node next : α} (h : OpenEdge successors roots
      (find successors nodes roots) node next) :
      left.idxOf node < left.idxOf next := by
    obtain ⟨hreach, hfollows, hopen⟩ := h
    refine (hleft.settled.idxOf_lt hnodup
      (hleft.mem_of_reachable hdone hreach) hfollows ?_).2
    simpa [Closes, find, search] using hopen
  have hwalk {start last : α} (h : Relation.TransGen (OpenEdge successors roots
      (find successors nodes roots)) start last) :
      left.idxOf start < left.idxOf last := by
    induction h with
    | single hedge => exact hlater hedge
    | tail _ hedge ih => exact ih.trans (hlater hedge)
  exact fun h => Nat.lt_irrefl _ (hwalk h)

omit [DecidableEq α] in
theorem IsCycle.exists_transGen {roots cycle : List α}
    (h : IsCycle successors roots cycle) :
    ∃ node, Reachable successors roots node ∧
      Relation.TransGen (Follows successors) node node := by
  match cycle, h with
  | node :: next :: rest, h =>
      refine ⟨node, h.reachable node List.mem_cons_self, ?_⟩
      have hlast : (next :: rest).getLast (by simp) = node := by
        have := h.head?_eq_getLast?
        rw [List.getLast?_cons_cons, List.getLast?_eq_some_getLast (by simp)]
          at this
        exact (Option.some.inj this).symm
      have hwalk := List.isChain_cons_cons.mp h.walk
      have hrest :=
        List.relationReflTransGen_of_exists_isChain_cons rest hwalk.2 hlast
      exact .head' hwalk.1 hrest
  | [_], h => exact absurd h.two_le_length (by simp)
  | [], h => exact absurd h.two_le_length (by simp)

theorem find_eq_nil_iff {nodes roots : List α}
    (hnodes : ∀ node, Reachable successors roots node → node ∈ nodes) :
    find successors nodes roots = [] ↔
      ¬ ∃ node, Reachable successors roots node ∧
        Relation.TransGen (Follows successors) node node := by
  constructor
  · rintro hnil ⟨node, hreach, hwalk⟩
    refine not_transGen_openEdge hnodes node ?_
    have hopen {last : α}
        (h : Relation.TransGen (Follows successors) node last) :
        Reachable successors roots last ∧ Relation.TransGen
          (OpenEdge successors roots (find successors nodes roots)) node
          last := by
      induction h with
      | single hedge =>
          exact ⟨hreach.next hedge,
            .single ⟨hreach, hedge, by simp [Closes, hnil]⟩⟩
      | tail _ hedge ih =>
          exact ⟨ih.1.next hedge,
            ih.2.tail ⟨ih.1, hedge, by simp [Closes, hnil]⟩⟩
    exact (hopen hwalk).2
  · intro hnone
    refine List.eq_nil_iff_forall_not_mem.mpr fun cycle hcycle => hnone ?_
    exact (isCycle_of_mem_find hcycle).exists_transGen

/-- A search ends, and the edges that close the cycles it reports break every
cycle that the roots lead to; it reports none only where there is none. -/
theorem find_breaks_cycles {successors : α → List α} {nodes roots : List α}
    (hnodes : ∀ node, Reachable successors roots node → node ∈ nodes) :
    (search successors nodes roots).isDone = true ∧
    (∀ node, ¬ Relation.TransGen
      (OpenEdge successors roots (find successors nodes roots)) node node) ∧
    (find successors nodes roots = [] ↔
      ¬ ∃ node, Reachable successors roots node ∧
        Relation.TransGen (Follows successors) node node) :=
  ⟨search_isDone hnodes, not_transGen_openEdge hnodes, find_eq_nil_iff hnodes⟩

theorem find_breaks_cycles_two_roots :
    (∀ node, Reachable (fun n : Nat => [(n + 1) % 4, n / 2]) [2, 0] node →
      node ∈ [0, 1, 2, 3]) ∧
    (search (fun n : Nat => [(n + 1) % 4, n / 2]) [0, 1, 2, 3] [2, 0]).isDone ∧
    (∀ node, ¬ Relation.TransGen
      (OpenEdge (fun n : Nat => [(n + 1) % 4, n / 2]) [2, 0]
        (find (fun n : Nat => [(n + 1) % 4, n / 2]) [0, 1, 2, 3] [2, 0]))
      node node) ∧
    ∃ node, Reachable (fun n : Nat => [(n + 1) % 4, n / 2]) [2, 0] node ∧
      Relation.TransGen (Follows fun n : Nat => [(n + 1) % 4, n / 2])
        node node := by
  have hnodes (node : Nat)
      (h : Reachable (fun n : Nat => [(n + 1) % 4, n / 2]) [2, 0] node) :
      node ∈ [0, 1, 2, 3] := h.mem (by decide) (by decide)
  obtain ⟨hdone, hopen, hnil⟩ := find_breaks_cycles hnodes
  refine ⟨hnodes, hdone, hopen, ?_⟩
  exact not_not.mp (mt hnil.mpr (by decide))

end Workflows.Cycle
