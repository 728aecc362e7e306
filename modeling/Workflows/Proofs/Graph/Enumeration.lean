import Workflows.Graph.Path
import Workflows.Proofs.Graph.Successors
import Workflows.Proofs.Graph.Reachability

/-!
# What an enumeration runs through

From a path an enumeration tries the pending successors of its last id one by
one.  Running until they are used up adds the ways out through them, in order,
to what was found, and takes the last id off the path again.  An id not on the
path yet is one of finitely many, which bounds both the ways and the steps.
-/

namespace Workflows.Enumeration

/-- The ways to the exit from an id that meet no id twice and none of the
visited ones; `bound` is to be the number of ids that are not visited. -/
def waysOut (successors : String → List String) (exit : String) :
    Nat → List String → String → List (List String)
  | 0, _, _ => []
  | bound + 1, visited, id =>
      if id ∈ visited then []
      else
        (if id = exit then [[id]] else []) ++
          ((successors id).flatMap
            (waysOut successors exit bound (id :: visited))).map (id :: ·)

def blockSteps (width bound count : Nat) : Nat :=
  count * (Nat.pow (width + 2) (bound + 1) + 1) + 1

variable {successors : String → List String} {exit : String}

theorem waysOut_of_mem {visited : List String} {id : String} (h : id ∈ visited)
    (bound : Nat) : waysOut successors exit bound visited id = [] := by
  cases bound with
  | zero => rfl
  | succ bound => rw [waysOut, if_pos h]

theorem waysOut_succ {visited : List String} {id : String} (h : id ∉ visited)
    (bound : Nat) :
    waysOut successors exit (bound + 1) visited id =
      (if id = exit then [[id]] else []) ++
        ((successors id).flatMap
          (waysOut successors exit bound (id :: visited))).map (id :: ·) := by
  rw [waysOut, if_neg h]

/-! ## Steps -/

theorem step_leave (path : List String) (below found : List (List String)) :
    step successors exit ⟨path, path, [] :: below, found⟩ =
      ⟨path.tail, path.tail, below, found⟩ := by
  cases path <;> simp [step]

theorem step_skip {path : List String} {next : String} (h : next ∈ path)
    (rest : List String) (below found : List (List String)) :
    step successors exit ⟨path, path, (next :: rest) :: below, found⟩ =
      ⟨path, path, rest :: below, found⟩ := by
  simp [step, h]

theorem step_enter {path : List String} {next : String} (h : next ∉ path)
    (rest : List String) (below found : List (List String)) :
    step successors exit ⟨path, path, (next :: rest) :: below, found⟩ =
      ⟨next :: path, next :: path, successors next :: rest :: below,
        (if next = exit then [(next :: path).reverse] else []) ++ found⟩ := by
  by_cases heq : next = exit
  · rw [if_pos heq]
    simp [step, h, if_pos heq]
  · rw [if_neg heq]
    simp [step, h, if_neg heq]

theorem run_succ (fuel : Nat) (path onPath : List String)
    (nexts : List String) (below found : List (List String)) :
    run successors exit (fuel + 1) ⟨path, onPath, nexts :: below, found⟩ =
      run successors exit fuel
        (step successors exit ⟨path, onPath, nexts :: below, found⟩) :=
  rfl

theorem run_of_isDone {s : Enumeration} (h : s.isDone = true) (fuel : Nat) :
    run successors exit fuel s = s := by
  cases fuel <;> simp [run, h]

theorem run_add (first second : Nat) (s : Enumeration) :
    run successors exit (first + second) s =
      run successors exit second (run successors exit first s) := by
  induction first generalizing s with
  | zero => rw [Nat.zero_add, run]
  | succ first ih =>
      rw [Nat.succ_add, run, run]
      cases hdone : s.isDone with
      | true => simp [run_of_isDone hdone]
      | false => simpa using ih _

/-! ## Blocks of pending successors -/

theorem length_unvisited_singleton_lt {ids : List String}
    {entry : String} (h : entry ∈ ids) :
    (unvisited ids [entry]).length < ids.length := by
  have hall : unvisited ids [] = ids := by simp [unvisited]
  simpa [hall] using length_unvisited_lt h (by simp : entry ∉ [])

theorem blockSteps_succ (width bound count : Nat) :
    blockSteps width bound (count + 1) =
      blockSteps width bound count + (Nat.pow (width + 2) (bound + 1) + 1) := by
  simp only [blockSteps, Nat.succ_mul]
  omega

theorem blockSteps_enter_le (bound : Nat) {width count : Nat}
    (h : count ≤ width) :
    blockSteps width bound count ≤ Nat.pow (width + 2) (bound + 1 + 1) := by
  have hpos : 1 ≤ Nat.pow (width + 2) bound := Nat.pow_pos (by omega)
  have hcount : count * (Nat.pow (width + 2) (bound + 1) + 1) ≤
      width * (Nat.pow (width + 2) (bound + 1) + 1) :=
    Nat.mul_le_mul_right _ h
  have hlarge : width + 2 ≤ Nat.pow (width + 2) (bound + 1) := by
    calc
      width + 2 = 1 * (width + 2) := (Nat.one_mul _).symm
      _ ≤ Nat.pow (width + 2) bound * (width + 2) := Nat.mul_le_mul_right _ hpos
      _ = Nat.pow (width + 2) (bound + 1) := rfl
  have hpow : Nat.pow (width + 2) (bound + 1 + 1) =
      width * Nat.pow (width + 2) (bound + 1) +
        2 * Nat.pow (width + 2) (bound + 1) := by
    rw [← Nat.add_mul, Nat.mul_comm]
    rfl
  rw [Nat.mul_add, Nat.mul_add, Nat.mul_one, Nat.mul_one] at hcount
  rw [blockSteps, hpow, Nat.mul_add, Nat.mul_one]
  omega

theorem exists_run_block (exit : String) {ids : List String} {width : Nat}
    (hclosed : ∀ id, ∀ next ∈ successors id, next ∈ ids)
    (hwidth : ∀ id, (successors id).length ≤ width) (bound : Nat) :
    ∀ (path nexts : List String) (below found : List (List String)),
      (unvisited ids path).length ≤ bound → (∀ next ∈ nexts, next ∈ ids) →
      ∃ fuel ≤ blockSteps width bound nexts.length,
        run successors exit fuel ⟨path, path, nexts :: below, found⟩ =
          ⟨path.tail, path.tail, below,
            ((nexts.flatMap (waysOut successors exit bound path)).map
              (path.reverse ++ ·)).reverse ++ found⟩ := by
  induction bound using Nat.strongRecOn with
  | ind bound ihBound =>
      intro path nexts below found hbound hnexts
      induction nexts generalizing found with
      | nil =>
          refine ⟨1, by simp [blockSteps], ?_⟩
          rw [run_succ, step_leave]
          simp [run]
      | cons next rest ih =>
          have hrest := fun other hother =>
            hnexts other (List.mem_cons_of_mem _ hother)
          have hsteps : blockSteps width bound (next :: rest).length =
              blockSteps width bound rest.length +
                (Nat.pow (width + 2) (bound + 1) + 1) :=
            blockSteps_succ width bound rest.length
          by_cases hmem : next ∈ path
          · obtain ⟨fuel, hfuel, hrun⟩ := ih found hrest
            refine ⟨fuel + 1, by omega, ?_⟩
            rw [run_succ, step_skip hmem, hrun, List.flatMap_cons,
              waysOut_of_mem hmem, List.nil_append]
          · have hfewer :=
              length_unvisited_lt (hnexts next List.mem_cons_self) hmem
            obtain ⟨bound, rfl⟩ : ∃ fewer, bound = fewer + 1 :=
              ⟨bound - 1, by omega⟩
            -- the ways through `next` are found before those through the rest
            obtain ⟨inner, hinner, hrunInner⟩ := ihBound bound (by omega)
              (next :: path) (successors next) (rest :: below)
              ((if next = exit then [(next :: path).reverse] else []) ++ found)
              (by omega) (hclosed next)
            obtain ⟨outer, houter, hrunOuter⟩ := ih
              ((((successors next).flatMap
                (waysOut successors exit bound (next :: path))).map
                  ((next :: path).reverse ++ ·)).reverse ++
                ((if next = exit then [(next :: path).reverse] else []) ++
                  found))
              hrest
            have hle := blockSteps_enter_le bound (hwidth next)
            refine ⟨inner + outer + 1, by omega, ?_⟩
            rw [run_succ, step_enter hmem, run_add, hrunInner, List.tail_cons,
              hrunOuter, List.flatMap_cons, waysOut_succ hmem]
            by_cases heq : next = exit <;> simp [heq, Function.comp_def]

theorem run_start {ids : List String} {width : Nat}
    (hclosed : ∀ id, ∀ next ∈ successors id, next ∈ ids)
    (hwidth : ∀ id, (successors id).length ≤ width) {entry : String}
    (hentry : entry ∈ ids) {fuel : Nat}
    (hfuel : Nat.pow (width + 2) (ids.length + 1) ≤ fuel) :
    run successors exit fuel (start successors entry) =
      ⟨[], [], [], (((successors entry).flatMap
        (waysOut successors exit (ids.length - 1) [entry])).map
          (entry :: ·)).reverse⟩ := by
  have hfewer := length_unvisited_singleton_lt hentry
  obtain ⟨used, hused, hrun⟩ := exists_run_block exit hclosed hwidth
    (ids.length - 1) [entry] (successors entry) [] [] (by omega) (hclosed entry)
  have hle := blockSteps_enter_le (ids.length - 1) (hwidth entry)
  rw [show ids.length - 1 + 1 = ids.length by omega] at hle
  rw [show fuel = used + (fuel - used) by omega, run_add, start, hrun]
  exact (run_of_isDone rfl _).trans (by simp)

end Workflows.Enumeration
