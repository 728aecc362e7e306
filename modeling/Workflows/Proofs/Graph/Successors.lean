import Mathlib.Data.List.Induction
import Mathlib.Data.List.Nodup
import Workflows.Graph.Adjacency

/-!
# Successors and edges

An index knows of each id the targets of the edges that were entered there.
After all edges of a graph these are, oldest first, the targets of the edges
that leave the id and have two known ends, in the order of the edges.
-/

namespace Workflows

/-! ## Distinct items -/

section Distinct

variable {α : Type} [DecidableEq α]

@[simp] theorem mem_distinct {item : α} {items : List α} :
    item ∈ distinct items ↔ item ∈ items := by
  induction items with
  | nil => simp [distinct]
  | cons first rest ih =>
      by_cases heq : item = first <;> simp [distinct, ih, heq]

theorem nodup_distinct (items : List α) : (distinct items).Nodup := by
  induction items with
  | nil => exact .nil
  | cons first rest ih =>
      exact List.nodup_cons.mpr ⟨by simp, ih.filter _⟩

theorem length_distinct_le (items : List α) :
    (distinct items).length ≤ items.length := by
  induction items with
  | nil => simp [distinct]
  | cons first rest ih =>
      have hfilter := List.length_filter_le (· ≠ first) (distinct rest)
      simp only [distinct, List.length_cons]
      omega

theorem filter_distinct (p : α → Bool) (items : List α) :
    (distinct items).filter p = distinct (items.filter p) := by
  induction items with
  | nil => rfl
  | cons first rest ih =>
      rw [distinct, List.filter_cons, List.filter_cons, List.filter_filter]
      cases hfirst : p first with
      | true =>
          rw [if_pos rfl, if_pos rfl, distinct, ← ih, List.filter_filter]
          simp only [Bool.and_comm]
      | false =>
          rw [if_neg Bool.false_ne_true, if_neg Bool.false_ne_true, ← ih]
          refine List.filter_congr fun item _ => ?_
          by_cases heq : item = first <;> simp [heq, hfirst]

end Distinct

/-! ## First occurrences -/

/-- The different items, each where it occurs first. -/
structure FirstOccurrences (items firsts : List String) : Prop where
  nodup : firsts.Nodup
  mem_iff : ∀ item, item ∈ firsts ↔ item ∈ items
  inOrder : firsts.Pairwise fun a b => items.idxOf a < items.idxOf b

theorem distinct_concat {α : Type} [DecidableEq α] (items : List α) (item : α) :
    distinct (items ++ [item]) =
      if item ∈ items then distinct items else distinct items ++ [item] := by
  induction items with
  | nil => rfl
  | cons first rest ih =>
      rw [List.cons_append, distinct, distinct, ih]
      by_cases heq : item = first
      · subst heq
        rw [if_pos List.mem_cons_self]
        split <;> simp
      · simp only [List.mem_cons, heq, false_or]
        split <;> simp [heq]

theorem firstOccurrences_distinct (items : List String) :
    FirstOccurrences items (distinct items) := by
  refine ⟨nodup_distinct items, fun _ => mem_distinct, ?_⟩
  induction items using List.reverseRecOn with
  | nil => exact .nil
  | append_singleton items item ih =>
      have hkept : (distinct items).Pairwise fun a b =>
          (items ++ [item]).idxOf a < (items ++ [item]).idxOf b := by
        refine ih.imp_of_mem fun {a b} ha hb hlt => ?_
        rwa [List.idxOf_append_of_mem (mem_distinct.mp ha),
          List.idxOf_append_of_mem (mem_distinct.mp hb)]
      rw [distinct_concat]
      split
      · exact hkept
      · next hnew =>
          refine List.pairwise_append.mpr ⟨hkept, List.pairwise_singleton _ _,
            ?_⟩
          intro a ha b hb
          have ha := mem_distinct.mp ha
          rw [List.mem_singleton.mp hb, List.idxOf_append_of_mem ha,
            List.idxOf_append_of_notMem hnew]
          exact Nat.lt_add_right _ (List.idxOf_lt_length_of_mem ha)

/-! ## Vertices -/

namespace Vertex

variable {f : Vertex → Vertex}

theorem map_id_updateFirst (hf : ∀ v, (f v).id = v.id) (id : String)
    (vertices : List Vertex) :
    (updateFirst id f vertices).map Vertex.id = vertices.map Vertex.id := by
  induction vertices with
  | nil => rfl
  | cons v rest ih =>
      rw [updateFirst]
      split
      · simp [hf]
      · simp [ih]

theorem find?_updateFirst (hf : ∀ v, (f v).id = v.id) (id other : String)
    (vertices : List Vertex) :
    (updateFirst id f vertices).find? (fun v => v.id == other) =
      if id = other then (vertices.find? fun v => v.id == other).map f
      else vertices.find? fun v => v.id == other := by
  induction vertices with
  | nil => simp [updateFirst]
  | cons v rest ih =>
      rw [updateFirst]
      by_cases hv : v.id = id
      · by_cases heq : id = other
        · simp [hv, hf, heq]
        · simp [hv, hf, heq]
      · rw [if_neg hv, List.find?_cons, List.find?_cons, ih]
        by_cases hother : v.id = other
        · have hne : id ≠ other := fun h => hv (hother.trans h.symm)
          simp [hother, hne]
        · rw [beq_false_of_ne hother]

def leadingTo (target : String) (v : Vertex) : Vertex :=
  { v with outgoing := target :: v.outgoing }

def entered (v : Vertex) : Vertex := { v with isEntered := true }

@[simp] theorem leadingTo_id (target : String) (v : Vertex) :
    (v.leadingTo target).id = v.id := rfl

@[simp] theorem entered_id (v : Vertex) : v.entered.id = v.id := rfl

end Vertex

/-! ## Edges from an id -/

def Edge.ends (e : Edge) : String × String := (e.source, e.target)

namespace Adjacency

theorem ofGraph_congr {g g' : Graph} (hids : g.ids = g'.ids)
    (hends : g.edges.map Edge.ends = g'.edges.map Edge.ends) :
    ofGraph g = ofGraph g' := by
  have hfold (g : Graph) : ofGraph g = (g.edges.map Edge.ends).foldl
      (fun a ends => a.insert ends.1 ends.2) ⟨g.ids.map fun id =>
        ⟨id, [], false⟩⟩ := by
    rw [ofGraph, List.foldl_map]
    rfl
  rw [hfold, hfold, hids, hends]

def outgoing (a : Adjacency) (id : String) : List String :=
  ((a.vertices.find? fun v => v.id == id).map Vertex.outgoing).getD []

theorem successors_eq (a : Adjacency) (id : String) :
    a.successors id = distinct (a.outgoing id).reverse := by
  unfold successors outgoing
  cases a.vertices.find? fun v => v.id == id with
  | none => rfl
  | some v => rfl

theorem contains_iff {a : Adjacency} {id : String} :
    a.contains id = true ↔ id ∈ a.vertices.map Vertex.id := by
  simp [contains]

theorem contains_eq {g : Graph} {a : Adjacency}
    (hids : a.vertices.map Vertex.id = g.ids) (id : String) :
    a.contains id = g.hasNode id := by
  rw [Bool.eq_iff_iff, contains_iff, hids, Graph.hasNode_eq_true_iff]

theorem exists_find?_of_contains {a : Adjacency} {id : String}
    (h : a.contains id = true) :
    ∃ v, a.vertices.find? (fun v => v.id == id) = some v := by
  rw [← Option.isSome_iff_exists, List.find?_isSome]
  simpa [contains] using h

theorem insert_eq {a : Adjacency} {source target : String}
    (hsource : a.contains source = true) (htarget : a.contains target = true) :
    a.insert source target =
      ⟨Vertex.updateFirst target Vertex.entered
        (Vertex.updateFirst source (Vertex.leadingTo target) a.vertices)⟩ := by
  rw [insert, hsource, htarget]
  rfl

theorem insert_eq_self {a : Adjacency} {source target : String}
    (h : ¬ (a.contains source = true ∧ a.contains target = true)) :
    a.insert source target = a := by
  rw [insert, if_neg (by simpa using h)]

theorem ids_insert (a : Adjacency) (source target : String) :
    (a.insert source target).vertices.map Vertex.id =
      a.vertices.map Vertex.id := by
  by_cases h : a.contains source = true ∧ a.contains target = true
  · rw [insert_eq h.1 h.2, Vertex.map_id_updateFirst (by simp),
      Vertex.map_id_updateFirst (by simp)]
  · rw [insert_eq_self h]

theorem outgoing_insert {a : Adjacency} {source target : String}
    (hsource : a.contains source = true) (htarget : a.contains target = true)
    (id : String) :
    (a.insert source target).outgoing id =
      if source = id then target :: a.outgoing id else a.outgoing id := by
  have hentered : Vertex.outgoing ∘ Vertex.entered = Vertex.outgoing := rfl
  rw [insert_eq hsource htarget, outgoing, outgoing,
    Vertex.find?_updateFirst (by simp), Vertex.find?_updateFirst (by simp)]
  by_cases heq : source = id
  · subst heq
    obtain ⟨v, hv⟩ := exists_find?_of_contains hsource
    by_cases hself : target = source <;> simp [hv, hself, Vertex.entered,
      Vertex.leadingTo]
  · by_cases hself : target = id <;> simp [heq, hself, hentered]

end Adjacency

namespace Graph

def edgesFrom (g : Graph) (id : String) : List Edge :=
  g.edges.filter fun e => e.source == id && g.hasNode e.source &&
    g.hasNode e.target

theorem edgesFrom_of_notMem {g : Graph} {id : String} (h : id ∉ g.ids) :
    g.edgesFrom id = [] := by
  rw [edgesFrom, List.filter_eq_nil_iff]
  intro e _ hleaves
  simp only [Bool.and_eq_true, beq_iff_eq, hasNode_eq_true_iff] at hleaves
  exact h (hleaves.1.1 ▸ hleaves.1.2)

end Graph

namespace Adjacency

theorem outgoing_foldl_insert (g : Graph) (id : String) (edges : List Edge)
    {a : Adjacency} (hids : a.vertices.map Vertex.id = g.ids) :
    (edges.foldl (fun a e => a.insert e.source e.target) a).outgoing id =
      ((edges.filter fun e => e.source == id && g.hasNode e.source &&
        g.hasNode e.target).map Edge.target).reverse ++ a.outgoing id := by
  induction edges generalizing a with
  | nil => rfl
  | cons e edges ih =>
      rw [List.foldl_cons, ih ((ids_insert a e.source e.target).trans hids),
        List.filter_cons]
      by_cases hknown : a.contains e.source = true ∧ a.contains e.target = true
      · rw [outgoing_insert hknown.1 hknown.2]
        rw [contains_eq hids, contains_eq hids] at hknown
        by_cases heq : e.source = id <;> simp [heq, hknown]
        simp [← heq, hknown]
      · rw [insert_eq_self hknown]
        rw [contains_eq hids, contains_eq hids] at hknown
        have hends : (g.hasNode e.source && g.hasNode e.target) = false := by
          simpa using hknown
        rw [Bool.and_assoc, hends, Bool.and_false, if_neg Bool.false_ne_true]

theorem ids_new (g : Graph) :
    (⟨g.ids.map fun id => ⟨id, [], false⟩⟩ : Adjacency).vertices.map Vertex.id =
      g.ids := by
  simp [Function.comp_def]

theorem getD_find?_new {α : Type} {seen : Vertex → α} {new : α}
    (h : ∀ id, seen ⟨id, [], false⟩ = new) (g : Graph) (id : String) :
    (((g.ids.map fun id => (⟨id, [], false⟩ : Vertex)).find? fun v =>
      v.id == id).map seen).getD new = new := by
  cases hfind : (g.ids.map fun id => (⟨id, [], false⟩ : Vertex)).find? fun v =>
    v.id == id with
  | none => rfl
  | some v =>
      obtain ⟨other, -, rfl⟩ :=
        List.mem_map.mp (List.mem_of_find?_eq_some hfind)
      exact h other

theorem outgoing_new (g : Graph) (id : String) :
    outgoing ⟨g.ids.map fun id => ⟨id, [], false⟩⟩ id = [] :=
  getD_find?_new (fun _ => rfl) g id

theorem successors_ofGraph (g : Graph) (id : String) :
    (ofGraph g).successors id = distinct
      ((g.edgesFrom id).map Edge.target) := by
  rw [successors_eq, ofGraph, outgoing_foldl_insert g id g.edges (ids_new g),
    outgoing_new, List.append_nil, List.reverse_reverse, Graph.edgesFrom]

theorem successors_of_notMem {g : Graph} {id : String} (h : id ∉ g.ids) :
    (ofGraph g).successors id = [] := by
  rw [successors_ofGraph, Graph.edgesFrom_of_notMem h]
  rfl

theorem mem_ids_of_mem_successors {g : Graph} {id next : String}
    (h : next ∈ (ofGraph g).successors id) : next ∈ g.ids := by
  rw [successors_ofGraph, mem_distinct, List.mem_map] at h
  obtain ⟨e, he, rfl⟩ := h
  simp only [Graph.edgesFrom, List.mem_filter, Bool.and_eq_true] at he
  exact Graph.hasNode_eq_true_iff.mp he.2.2

theorem length_successors_le (g : Graph) (id : String) :
    ((ofGraph g).successors id).length ≤ g.edges.length := by
  rw [successors_ofGraph]
  calc
    (distinct ((g.edgesFrom id).map Edge.target)).length
      ≤ ((g.edgesFrom id).map Edge.target).length := length_distinct_le _
    _ = (g.edgesFrom id).length := List.length_map _
    _ ≤ g.edges.length := List.length_filter_le _ _

theorem successors_nodup (a : Adjacency) (id : String) :
    (a.successors id).Nodup := by
  rw [successors_eq]
  exact nodup_distinct _

end Adjacency

end Workflows
