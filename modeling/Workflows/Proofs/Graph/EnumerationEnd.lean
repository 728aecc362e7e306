import Mathlib.Logic.Function.Iterate
import Workflows.Proofs.Graph.ExecutionPaths

/-!
# An enumeration ends

An enumeration keeps three stacks together: the ids of the path, the same ids to
look up, and for each of them the successors that are still to be tried.  A step
takes a successor from the topmost list, or the list itself once it is used up.
An id that is entered was not on the path, so fewer ids are left to enter behind
it, and to try them all costs less than the successor that was taken.
-/

namespace Workflows.Enumeration

variable {successors : String → List String} {exit : String} {ids : List String}
  {width : Nat}

/-- The stacks of an enumeration belong together, and all that is pending are
given ids. -/
structure Aligned (ids : List String) (s : Enumeration) : Prop where
  onPath_eq : s.onPath = s.path
  nodup : s.path.Nodup
  length_eq : s.pending.length = s.path.length
  known : ∀ nexts ∈ s.pending, ∀ next ∈ nexts, next ∈ ids

/-- The steps that suffice to use up the successors pending at each id of a
path. -/
def stepsLeft (ids : List String) (width : Nat) :
    (path : List String) → List (List String) → Nat
  | id :: path, nexts :: below =>
      blockSteps width (unvisited ids (id :: path)).length nexts.length +
        stepsLeft ids width path below
  | _, _ => 0

/-- A step takes the last id off the path when nothing is pending there, passes
a successor that is on the path already, or enters one that is not; entering the
exit finds a path. -/
inductive Moves (successors : String → List String) (exit : String) :
    Enumeration → Enumeration → Prop
  | leave (id : String) (path : List String)
      (below found : List (List String)) :
      Moves successors exit ⟨id :: path, id :: path, [] :: below, found⟩
        ⟨path, path, below, found⟩
  | pass (path : List String) (next : String) (rest : List String)
      (below found : List (List String)) (h : next ∈ path) :
      Moves successors exit ⟨path, path, (next :: rest) :: below, found⟩
        ⟨path, path, rest :: below, found⟩
  | enter (path : List String) (next : String) (rest : List String)
      (below found : List (List String)) (h : next ∉ path) :
      Moves successors exit ⟨path, path, (next :: rest) :: below, found⟩
        ⟨next :: path, next :: path, successors next :: rest :: below,
          (if next = exit then [(next :: path).reverse] else []) ++ found⟩

/-! ## One step -/

section

variable {s t : Enumeration}

theorem step_of_isDone (h : s.isDone = true) : step successors exit s = s := by
  have hpending : s.pending = [] := List.isEmpty_iff.mp h
  rw [step, hpending]

theorem aligned_start (hclosed : ∀ id, ∀ next ∈ successors id, next ∈ ids)
    (entry : String) :
    Aligned ids (start successors entry) where
  onPath_eq := rfl
  nodup := List.nodup_singleton _
  length_eq := rfl
  known := List.forall_mem_singleton.mpr (hclosed entry)

theorem Aligned.moves (h : Aligned ids s) (hrun : s.isDone = false) :
    Moves successors exit s (step successors exit s) := by
  obtain ⟨path, onPath, pending, found⟩ := s
  obtain rfl : onPath = path := h.onPath_eq
  cases pending with
  | nil => cases hrun
  | cons nexts below =>
      cases nexts with
      | nil =>
          cases onPath with
          | nil => cases h.length_eq
          | cons id path =>
              rw [step_leave]
              exact .leave id path below found
      | cons next rest =>
          by_cases hmem : next ∈ onPath
          · rw [step_skip hmem]
            exact .pass onPath next rest below found hmem
          · rw [step_enter hmem]
            exact .enter onPath next rest below found hmem

theorem Aligned.of_moves (hclosed : ∀ id, ∀ next ∈ successors id, next ∈ ids)
    (h : Aligned ids s) (hmove : Moves successors exit s t) :
    Aligned ids t := by
  obtain ⟨-, hnodup, hlength, hknown⟩ := h
  cases hmove with
  | leave id path below found =>
      exact ⟨rfl, hnodup.of_cons, Nat.succ.inj hlength,
        fun nexts hnexts => hknown nexts (List.mem_cons_of_mem _ hnexts)⟩
  | pass path next rest below found hmem =>
      obtain ⟨hnexts, hbelow⟩ := List.forall_mem_cons.mp hknown
      exact ⟨rfl, hnodup, hlength, List.forall_mem_cons.mpr
        ⟨(List.forall_mem_cons.mp hnexts).2, hbelow⟩⟩
  | enter path next rest below found hmem =>
      obtain ⟨hnexts, hbelow⟩ := List.forall_mem_cons.mp hknown
      exact ⟨rfl, List.nodup_cons.mpr ⟨hmem, hnodup⟩, congrArg (· + 1) hlength,
        List.forall_mem_cons.mpr ⟨hclosed next,
          List.forall_mem_cons.mpr ⟨(List.forall_mem_cons.mp hnexts).2,
            hbelow⟩⟩⟩

theorem blockSteps_lt {bound fewer count : Nat} (hcount : count ≤ width)
    (hfewer : fewer < bound) :
    blockSteps width fewer count < Nat.pow (width + 2) (bound + 1) + 1 := by
  have hpow : Nat.pow (width + 2) (fewer + 1 + 1) ≤
      Nat.pow (width + 2) (bound + 1) :=
    Nat.pow_le_pow_right (by omega) (by omega)
  exact Nat.lt_succ_of_le (Nat.le_trans (blockSteps_enter_le fewer hcount) hpow)

theorem stepsLeft_lt_of_moves (hwidth : ∀ id, (successors id).length ≤ width)
    (h : Aligned ids s) (hmove : Moves successors exit s t) :
    stepsLeft ids width t.path t.pending <
      stepsLeft ids width s.path s.pending := by
  cases hmove with
  | leave id path below found =>
      simp only [stepsLeft, blockSteps]
      omega
  | pass path next rest below found hmem =>
      obtain ⟨id, path, rfl⟩ :=
        List.exists_cons_of_ne_nil (List.ne_nil_of_mem hmem)
      simp only [stepsLeft, List.length_cons, blockSteps_succ]
      omega
  | enter path next rest below found hmem =>
      cases path with
      | nil => cases h.length_eq
      | cons id path =>
          have hknown := h.known _ List.mem_cons_self next List.mem_cons_self
          have hfewer := length_unvisited_lt hknown hmem
          have hsteps := blockSteps_lt (hwidth next) hfewer
          simp only [stepsLeft, List.length_cons, blockSteps_succ]
          omega

end

/-! ## All steps -/

section

variable {s : Enumeration}

theorem Aligned.step (hclosed : ∀ id, ∀ next ∈ successors id, next ∈ ids)
    (h : Aligned ids s) :
    Aligned ids (step successors exit s) := by
  cases hrun : s.isDone with
  | true => rwa [step_of_isDone hrun]
  | false => exact h.of_moves hclosed (h.moves hrun)

theorem Aligned.iterate (hclosed : ∀ id, ∀ next ∈ successors id, next ∈ ids)
    (h : Aligned ids s) (n : Nat) :
    Aligned ids ((Enumeration.step successors exit)^[n] s) := by
  induction n with
  | zero => exact h
  | succ n ih =>
      rw [Function.iterate_succ_apply']
      exact ih.step hclosed

theorem Aligned.exists_isDone (exit : String)
    (hclosed : ∀ id, ∀ next ∈ successors id, next ∈ ids)
    (hwidth : ∀ id, (successors id).length ≤ width) (h : Aligned ids s) :
    ∃ n ≤ stepsLeft ids width s.path s.pending,
      ((Enumeration.step successors exit)^[n] s).isDone = true := by
  generalize hleft : stepsLeft ids width s.path s.pending = left
  induction left using Nat.strongRecOn generalizing s with
  | ind left ih =>
      cases hdone : s.isDone with
      | true => exact ⟨0, Nat.zero_le _, hdone⟩
      | false =>
          have hmove :
              Moves successors exit s (Enumeration.step successors exit s) :=
            h.moves hdone
          have hlt := stepsLeft_lt_of_moves hwidth h hmove
          obtain ⟨n, hn, hend⟩ := ih _ (hleft ▸ hlt) (h.step hclosed) rfl
          exact ⟨n + 1, by omega, hend⟩

theorem Aligned.eq_nil_of_isDone (h : Aligned ids s) (hdone : s.isDone = true) :
    s.path = [] ∧ s.onPath = [] ∧ s.pending = [] := by
  have hpending : s.pending = [] := List.isEmpty_iff.mp hdone
  have hpath : s.path = [] := by
    rw [← List.length_eq_zero_iff, ← h.length_eq, hpending]
    rfl
  exact ⟨hpath, h.onPath_eq.trans hpath, hpending⟩

theorem run_eq_iterate {n fuel : Nat} (hn : n ≤ fuel)
    (hdone : ((Enumeration.step successors exit)^[n] s).isDone = true) :
    run successors exit fuel s = (Enumeration.step successors exit)^[n] s := by
  induction fuel generalizing n s with
  | zero =>
      rw [Nat.le_zero.mp hn]
      rfl
  | succ fuel ih =>
      rw [run]
      cases hstart : s.isDone with
      | true => exact (Function.iterate_fixed (step_of_isDone hstart) n).symm
      | false =>
          cases n with
          | zero => exact absurd (hstart.symm.trans hdone) Bool.false_ne_true
          | succ n => exact ih (Nat.le_of_succ_le_succ hn) hdone

end

end Workflows.Enumeration

/-! ## The enumeration of a graph -/

namespace Workflows.Graph

open Enumeration

def enumerationAfter (g : Graph) (entry exit : String) (n : Nat) :
    Enumeration :=
  let successors := onward (Adjacency.ofGraph g) exit
  (Enumeration.step successors exit)^[n] (Enumeration.start successors entry)

theorem aligned_enumerationAfter (g : Graph) (entry exit : String) (n : Nat) :
    Aligned g.ids (g.enumerationAfter entry exit n) :=
  (aligned_start (mem_ids_of_mem_onward exit) entry).iterate
    (mem_ids_of_mem_onward exit) n

theorem stepsLeft_start_le (g : Graph) (entry exit : String) :
    stepsLeft g.ids g.edges.length [entry]
      [onward (Adjacency.ofGraph g) exit entry] ≤
      g.pathBound := by
  rw [pathBound, ← List.length_map (f := Node.id), ← ids]
  simp only [stepsLeft, Nat.add_zero]
  by_cases hentry : entry ∈ g.ids
  · have hfewer := length_unvisited_singleton_lt hentry
    exact Nat.le_of_lt_succ
      (blockSteps_lt (length_onward_le g exit entry) hfewer)
  · -- nothing leads on from an id without a node
    have hnone : onward (Adjacency.ofGraph g) exit entry = [] := by
      rw [onward, Adjacency.successors_of_notMem hentry, ite_self]
    rw [hnone, List.length_nil, blockSteps, Nat.zero_mul]
    exact Nat.pow_pos (by omega)

/-- From whatever entry to whatever exit, an enumeration ends, within the bound
that is set for it.  On the way its stacks stay together, and at the end they
are all empty. -/
theorem enumeration_ends (g : Graph) (entry exit : String) :
    (∃ n ≤ g.pathBound, (g.enumerationAfter entry exit n).isDone = true ∧
      g.enumeration entry exit = g.enumerationAfter entry exit n) ∧
    ∀ n, Aligned g.ids (g.enumerationAfter entry exit n) ∧
      ((g.enumerationAfter entry exit n).isDone = true →
        (g.enumerationAfter entry exit n).path = [] ∧
        (g.enumerationAfter entry exit n).onPath = [] ∧
        (g.enumerationAfter entry exit n).pending = []) := by
  have haligned := aligned_enumerationAfter g entry exit
  refine ⟨?_, fun n => ⟨haligned n, (haligned n).eq_nil_of_isDone⟩⟩
  obtain ⟨n, hn, hdone⟩ := (haligned 0).exists_isDone exit
    (mem_ids_of_mem_onward exit) (length_onward_le g exit)
  have hbound : n ≤ g.pathBound :=
    Nat.le_trans hn (stepsLeft_start_le g entry exit)
  exact ⟨n, hbound, hdone, run_eq_iterate hbound hdone⟩

end Workflows.Graph
