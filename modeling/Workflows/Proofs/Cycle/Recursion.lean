import Mathlib.Logic.Function.Basic
import Workflows.Proofs.Cycle.Completeness
import Workflows.Proofs.Cycle.Spine

/-!
# The search as a recursion

The recursive search paints the nodes: a node is white until it is entered, grey
while it is on the current path, and black once all its successors were tried.
The search with a stack of frames asks for the same successors in the same order
and finds the same cycles.
-/

namespace Workflows.Cycle

inductive Colour where
  | white
  | grey
  | black
  deriving DecidableEq, Repr

/-- The recursive search below the last node of a path, or from the roots where
the path is empty: the colours before it, the nodes to try, the colours after
it, the nodes in the order in which it enters them, and its cycles.  A grey node
is the last node or one above it. -/
inductive Explores {α : Type} [DecidableEq α] (successors : α → List α) :
    List α → (α → Colour) → List α → (α → Colour) → List α → List (List α) →
    Prop
  | done {path : List α} {colour : α → Colour} :
      Explores successors path colour [] colour [] []
  | white {path pending order order' : List α} {next : α}
      {colour inner last : α → Colour} {cycles cycles' : List (List α)}
      (hnext : colour next = .white)
      (hbelow : Explores successors (path ++
        [next]) (Function.update colour next .grey)
        (successors next) inner order cycles)
      (hrest : Explores successors path (Function.update inner next .black)
        pending last order' cycles') :
      Explores successors path colour (next :: pending) last
        (next :: order ++ order') (cycles ++ cycles')
  | grey {path pending order : List α} {next : α} {colour last : α → Colour}
      {cycles : List (List α)} (hnext : colour next = .grey)
      (hrest : Explores successors path colour pending last order cycles) :
      Explores successors path colour (next :: pending) last order
        (closing path next :: cycles)
  | black {path pending order : List α} {next : α} {colour last : α → Colour}
      {cycles : List (List α)} (hnext : colour next = .black)
      (hrest : Explores successors path colour pending last order cycles) :
      Explores successors path colour (next :: pending) last order cycles

def unpainted {α : Type} : α → Colour := fun _ => .white

variable {α : Type} [DecidableEq α] {successors : α → List α}
  {nodes roots path nexts order : List α} {node : α} {colour last : α → Colour}
  {cycles : List (List α)}

/-! ## The recursion ends -/

def whites (nodes : List α) (colour : α → Colour) : List α :=
  nodes.filter fun node => colour node = .white

omit [DecidableEq α] in
theorem length_whites_lt (hnode : node ∈ nodes)
    (hsub : ∀ other, last other = .white → colour other = .white)
    (hbefore : colour node = .white) (hafter : last node ≠ .white) :
    (whites nodes last).length < (whites nodes colour).length := by
  have hfilter : whites nodes last =
      (whites nodes colour).filter fun other => last other = .white := by
    rw [whites, whites, List.filter_filter]
    refine List.filter_congr fun other _ => ?_
    simpa using hsub other
  rw [hfilter]
  refine List.length_filter_lt_length_iff_exists.mpr
    ⟨node, ?_, by simpa using hafter⟩
  exact List.mem_filter.mpr ⟨hnode, by simpa using hbefore⟩

theorem white_of_update {other : α} {paint : Colour} (hpaint : paint ≠ .white)
    (h : Function.update colour node paint other = .white) :
    colour other = .white := by
  by_cases heq : other = node
  · subst heq
    rw [Function.update_self] at h
    exact absurd h hpaint
  · rwa [Function.update_of_ne heq] at h

/-- Each call of the recursion has fewer white nodes than the one before, or as
many and fewer nodes to try. -/
theorem exists_explores (hnodes : ∀ node, Reachable successors roots node →
    node ∈ nodes)
    (path : List α) (colour : α → Colour) (nexts : List α)
    (hnexts : ∀ next ∈ nexts, Reachable successors roots next) :
    ∃ last order cycles,
      Explores successors path colour nexts last order cycles ∧
      ∀ node, last node = .white → colour node = .white := by
  induction hcount : (whites nodes colour).length using Nat.strong_induction_on
    generalizing path colour nexts with
  | _ count ih =>
      subst hcount
      induction nexts with
      | nil => exact ⟨colour, [], [], .done, fun _ h => h⟩
      | cons next pending ihPending =>
          obtain ⟨hnext, hpending⟩ := List.forall_mem_cons.mp hnexts
          cases hcolour : colour next with
          | white =>
              have hgrey (other : α)
                  (h : Function.update colour next .grey other = .white) :
                  colour other = .white := white_of_update (by decide) h
              have hfewerBelow :=
                length_whites_lt (hnodes next hnext) hgrey hcolour (by simp)
              obtain ⟨inner, order, cycles, hbelow, hinner⟩ :=
                ih _ hfewerBelow (path ++ [next]) _
                (successors next) (fun after hafter => hnext.next hafter) rfl
              have hblack (other : α)
                  (h : Function.update inner next .black other = .white) :
                  colour other = .white :=
                hgrey other (hinner other (white_of_update (by decide) h))
              have hfewerAfter :=
                length_whites_lt (hnodes next hnext) hblack hcolour (by simp)
              obtain ⟨last, order', cycles', hrest, hlast⟩ :=
                ih _ hfewerAfter path _ pending hpending rfl
              exact ⟨last, _, _, .white hcolour hbelow hrest,
                fun other h => hblack other (hlast other h)⟩
          | grey =>
              obtain ⟨last, order, cycles, hrest, hlast⟩ := ihPending hpending
              exact ⟨last, _, _, .grey hcolour hrest, hlast⟩
          | black =>
              obtain ⟨last, order, cycles, hrest, hlast⟩ := ihPending hpending
              exact ⟨last, _, _, .black hcolour hrest, hlast⟩

/-! ## Colours and frames -/

/-- The colours tell which nodes are on the path and which were entered. -/
structure Painted (colour : α → Colour) (path entered : List α) : Prop where
  grey_iff : ∀ node, colour node = .grey ↔ node ∈ path
  white_iff : ∀ node, colour node = .white ↔ node ∉ entered

namespace Painted

variable {entered : List α}

omit [DecidableEq α] in
theorem unpainted : Painted (unpainted : α → Colour) [] [] :=
  ⟨fun _ => by simp [Cycle.unpainted], fun _ => by simp [Cycle.unpainted]⟩

omit [DecidableEq α] in
theorem notMem_path (h : Painted colour path entered) {paint : Colour}
    (hnode : colour node = paint) (hpaint : paint ≠ .grey) : node ∉ path :=
  fun hmem => hpaint (hnode.symm.trans ((h.grey_iff node).mpr hmem))

omit [DecidableEq α] in
theorem mem_entered (h : Painted colour path entered) {paint : Colour}
    (hnode : colour node = paint) (hpaint : paint ≠ .white) : node ∈ entered :=
  not_not.mp fun hnew => hpaint (hnode.symm.trans ((h.white_iff node).mpr hnew))

theorem enter (h : Painted colour path entered) (node : α) :
    Painted (Function.update colour node .grey) (path ++ [node])
      (node :: entered) := by
  constructor <;> intro other <;> by_cases heq : other = node
  · simp [heq]
  · simp [heq, h.grey_iff]
  · simp [heq]
  · simp [heq, h.white_iff]

theorem leave (h : Painted colour (path ++ [node]) entered)
    (hpath : node ∉ path) (hentered : node ∈ entered) :
    Painted (Function.update colour node .black) path entered := by
  constructor <;> intro other <;> by_cases heq : other = node
  · simp [heq, hpath]
  · simp [heq, h.grey_iff]
  · simp [heq, hentered]
  · simp [heq, h.white_iff]

end Painted

/-! ## The frames follow the recursion -/

section Frames

variable {entered : List α} {below : List (Frame α)}

theorem Explores.steps
    (h : Explores successors path colour nexts last order cycles)
    (roots : List α) (found : List (List α))
    (hwalk : node :: below.map Frame.node = path.reverse) (hnodup : path.Nodup)
    (hpainted : Painted colour path entered) :
    Steps successors (standing roots (⟨node, nexts⟩ :: below) entered found)
        (standing roots below (order.reverse ++ entered)
          (cycles.reverse ++ found)) ∧
      Painted last path (order.reverse ++ entered) := by
  induction h generalizing node below entered found with
  | done =>
      have hreversed := List.nodup_reverse.mpr hnodup
      rw [← hwalk] at hreversed
      exact ⟨.one (step_leave (List.nodup_cons.mp hreversed).1), hpainted⟩
  | @white path pending _ _ next _ _ _ cycles _ hnext _ _ ihBelow ihRest =>
      have hpath := hpainted.notMem_path hnext (by decide)
      have hentered := (hpainted.white_iff next).mp hnext
      have hnodupBelow : (path ++ [next]).Nodup :=
        List.concat_eq_append ▸ hnodup.concat hpath
      have hwalkBelow : next :: (⟨node, pending⟩ :: below).map Frame.node =
          (path ++ [next]).reverse := by
        simp [hwalk]
      obtain ⟨hdown, hinner⟩ :=
        ihBelow found hwalkBelow hnodupBelow (hpainted.enter next)
      obtain ⟨hback, hlast⟩ := ihRest (cycles.reverse ++ found) hwalk hnodup
        (hinner.leave hpath (by simp))
      refine ⟨.trans (.one (step_enter hwalk hnodup hpath hentered))
        (hdown.trans ?_), ?_⟩
      · simpa using hback
      · simpa using hlast
  | @grey path _ _ next _ _ _ hnext _ ih =>
      have hpath := (hpainted.grey_iff next).mp hnext
      obtain ⟨hrest, hlast⟩ :=
        ih (closing path next :: found) hwalk hnodup hpainted
      refine ⟨.trans (.one (step_close hwalk hnodup hpath)) ?_, hlast⟩
      simpa using hrest
  | black hnext _ ih =>
      have hpath := hpainted.notMem_path hnext (by decide)
      have hentered := hpainted.mem_entered hnext (by decide)
      obtain ⟨hrest, hlast⟩ := ih found hwalk hnodup hpainted
      exact ⟨.trans (.one (step_pass hwalk hnodup hpath hentered)) hrest, hlast⟩

theorem Explores.steps_roots
    (h : Explores successors [] colour roots last order cycles)
    (found : List (List α)) (hpainted : Painted colour [] entered) :
    Steps successors (standing roots [] entered found)
      (standing [] [] (order.reverse ++ entered)
        (cycles.reverse ++ found)) := by
  induction roots generalizing colour entered found order cycles with
  | nil =>
      cases h
      exact .refl
  | cons root roots ih =>
      cases h with
      | @white _ _ _ _ _ _ _ _ cycles _ hroot hbelow hrest =>
          have hentered := (hpainted.white_iff root).mp hroot
          have hwalk : root :: ([] : List (Frame α)).map Frame.node =
              ([] ++ [root]).reverse := rfl
          obtain ⟨hdown, hinner⟩ :=
            hbelow.steps roots found hwalk (List.nodup_singleton root)
            (hpainted.enter root)
          have hback := ih hrest (cycles.reverse ++ found)
            (hinner.leave List.not_mem_nil (by simp))
          refine .trans (.one (step_enterRoot hentered)) (hdown.trans ?_)
          simpa using hback
      | grey hroot _ =>
          exact absurd ((hpainted.grey_iff root).mp hroot) List.not_mem_nil
      | black hroot hrest =>
          have hentered := hpainted.mem_entered hroot (by decide)
          exact .trans (.one (step_passRoot hentered)) (ih hrest found hpainted)

end Frames

/-! ## Both searches -/

theorem eq_of_explores (hnodes : ∀ node, Reachable successors roots node →
    node ∈ nodes)
    (h : Explores successors [] unpainted roots last order cycles) :
    order = entered successors nodes roots ∧
    cycles = find successors nodes roots := by
  have hsteps : Steps successors (Search.start roots)
      (standing [] [] (order.reverse ++ []) (cycles.reverse ++ [])) :=
    h.steps_roots [] .unpainted
  -- the bound ends the search somewhere, and a search has one end only
  have hend :=
    Steps.isDone_unique (steps_run successors (bound successors nodes roots) _)
    hsteps (search_isDone hnodes) rfl
  rw [entered, find, search, hend]
  simp [standing]

theorem mem_entered_iff (hnodes : ∀ node, Reachable successors roots node →
    node ∈ nodes)
    (node : α) : node ∈ entered successors nodes roots ↔
    Reachable successors roots node := by
  rw [entered, List.mem_reverse]
  constructor
  · exact (Consistent.run successors roots _).entered_reachable node
  · intro hreach
    obtain ⟨left, hleft⟩ :=
      exists_leftInOrder successors roots (bound successors nodes roots)
    have hmem := hleft.mem_of_reachable (search_isDone hnodes) hreach
    exact hleft.entered_perm.mem_iff.mpr (List.mem_append_left _ hmem)

/-- A search ends.  It asks for the successors of the nodes that can be reached,
each once and in the order in which the recursive search enters them, and finds
the cycles that the recursive search finds, in their order and as often. -/
theorem search_refines_recursion
    (hnodes : ∀ node, Reachable successors roots node → node ∈ nodes) :
    (search successors nodes roots).isDone = true ∧
    (∀ order cycles,
      (∃ last, Explores successors [] unpainted roots last order cycles) ↔
      order = entered successors nodes roots ∧
      cycles = find successors nodes roots) ∧
    (entered successors nodes roots).Nodup ∧
    ∀ node, node ∈ entered successors nodes roots ↔
    Reachable successors roots node := by
  refine ⟨search_isDone hnodes, fun order cycles => ⟨?_, ?_⟩, ?_,
    mem_entered_iff hnodes⟩
  · rintro ⟨last, h⟩
    exact eq_of_explores hnodes h
  · rintro ⟨rfl, rfl⟩
    obtain ⟨last, order, cycles, h, -⟩ :=
      exists_explores hnodes [] unpainted roots fun root hroot => .of_root hroot
    obtain ⟨rfl, rfl⟩ := eq_of_explores hnodes h
    exact ⟨last, h⟩
  · exact List.nodup_reverse.mpr
      (Consistent.run successors roots _).entered_nodup

def repeating : Nat → List Nat
  | 0 => [1, 4]
  | 1 => [1, 4, 0, 1]
  | _ => [4]

/-- A successor that is there twice closes two cycles, and one that was left
closes none. -/
theorem search_refines_recursion_repeating :
    entered repeating [0, 1, 4] [0, 4, 0] = [0, 1, 4] ∧
      ∃ last, Explores repeating [] unpainted [0, 4, 0] last [0, 1, 4]
        [[1, 1], [4, 4], [0, 1, 0], [1, 1]] := by
  have hnodes (node : Nat) (h : Reachable repeating [0, 4, 0] node) :
      node ∈ [0, 1, 4] :=
    h.mem (by decide) (by decide)
  obtain ⟨-, hrecursion, -⟩ := search_refines_recursion hnodes
  exact ⟨by decide, (hrecursion _ _).mpr ⟨by decide, by decide⟩⟩

end Workflows.Cycle
