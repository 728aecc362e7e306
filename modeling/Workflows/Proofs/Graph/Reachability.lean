import Mathlib.Algebra.GroupWithZero.Nat
import Mathlib.Data.List.Basic
import Mathlib.Logic.Relation

/-!
# Walks along successors

A graph is given by the list of successors of each node.  What a search has not
visited yet grows smaller with each node that it visits.
-/

namespace Workflows

variable {α : Type}

def Follows (successors : α → List α) (node next : α) : Prop :=
  next ∈ successors node

def Reachable (successors : α → List α) (roots : List α) (node : α) : Prop :=
  ∃ root ∈ roots, Relation.ReflTransGen (Follows successors) root node

inductive ReachedIn {α : Type} (successors : α → List α) (root : α) :
    Nat → α → Prop
  | root : ReachedIn successors root 0 root
  | next {n : Nat} {node next : α} (h : ReachedIn successors root n node)
      (hnext : next ∈ successors node) : ReachedIn successors root (n + 1) next

namespace Reachable

variable {successors : α → List α} {roots : List α}

theorem of_root {root : α} (h : root ∈ roots) :
    Reachable successors roots root :=
  ⟨root, h, .refl⟩

theorem next {node next : α} (h : Reachable successors roots node)
    (hnext : next ∈ successors node) : Reachable successors roots next := by
  obtain ⟨root, hroot, hwalk⟩ := h
  exact ⟨root, hroot, hwalk.tail hnext⟩

theorem mem {nodes : List α} (hroots : ∀ root ∈ roots, root ∈ nodes)
    (hclosed : ∀ node ∈ nodes, ∀ next ∈ successors node, next ∈ nodes)
    {node : α} (h : Reachable successors roots node) : node ∈ nodes := by
  obtain ⟨root, hroot, hwalk⟩ := h
  induction hwalk with
  | refl => exact hroots root hroot
  | tail _ hnext ih => exact hclosed _ ih _ hnext

end Reachable

/-! ## Unvisited nodes -/

variable [DecidableEq α]

def unvisited (nodes visited : List α) : List α :=
  nodes.filter fun node => node ∉ visited

theorem mem_unvisited {nodes visited : List α} {node : α} :
    node ∈ unvisited nodes visited ↔ node ∈ nodes ∧ node ∉ visited := by
  simp [unvisited]

theorem sum_map_filter_ne_add_le (cost : α → Nat) {nodes : List α} {node : α}
    (hnode : node ∈ nodes) :
    ((nodes.filter (· ≠ node)).map cost).sum + cost node ≤
      (nodes.map cost).sum := by
  have hfilter (nodes : List α) :
      ((nodes.filter (· ≠ node)).map cost).sum ≤ (nodes.map cost).sum := by
    induction nodes with
    | nil => simp
    | cons first nodes ih =>
        by_cases heq : first = node
        · simpa [heq] using Nat.le_add_left_of_le ih
        · simpa [heq] using ih
  induction nodes with
  | nil => simp at hnode
  | cons first nodes ih =>
      by_cases heq : first = node
      · have := hfilter nodes
        simp only [heq, List.filter_cons_of_neg, ne_eq, not_true_eq_false,
          decide_false, Bool.false_eq_true, not_false_eq_true, List.map_cons,
          List.sum_cons] at this ⊢
        omega
      · have := ih (List.mem_of_ne_of_mem (Ne.symm heq) hnode)
        simp only [heq, List.filter_cons_of_pos, ne_eq, not_false_eq_true,
          decide_true, List.map_cons, List.sum_cons] at this ⊢
        omega

theorem sum_map_unvisited_add_le (cost : α → Nat) {nodes visited : List α}
    {node : α} (hnode : node ∈ nodes) (hnew : node ∉ visited) :
    ((unvisited nodes (node :: visited)).map cost).sum + cost node ≤
      ((unvisited nodes visited).map cost).sum := by
  have hfilter : unvisited nodes (node :: visited) =
      (unvisited nodes visited).filter (· ≠ node) := by
    simp [unvisited, List.filter_filter]
  rw [hfilter]
  exact sum_map_filter_ne_add_le cost (mem_unvisited.mpr ⟨hnode, hnew⟩)

theorem length_unvisited_lt {nodes visited : List α} {node : α}
    (hnode : node ∈ nodes) (hnew : node ∉ visited) :
    (unvisited nodes (node :: visited)).length <
      (unvisited nodes visited).length := by
  have hcost := sum_map_unvisited_add_le (fun _ => 1) hnode hnew
  simp only [List.map_const', List.sum_replicate_nat, Nat.mul_one] at hcost
  exact hcost

end Workflows
