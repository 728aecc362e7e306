import Mathlib.Data.List.Nodup
import Workflows.Proofs.Json.Printing

/-!
# Records are read back

A record whose fields have different names is read as the list of its fields,
the absent ones among them.  Every kind of field then has a law of its own: what
it is written as is read back.
-/

namespace Workflows.Json

/-! ## Fields by name -/

def present (members : List (String × Option Json)) : List (String × Json) :=
  members.filterMap fun (name, value) => value.map (name, ·)

theorem record_eq (members : List (String × Option Json)) :
    record members = .obj (present members) := rfl

theorem present_cons_none (name : String)
    (members : List (String × Option Json)) :
    present ((name, none) :: members) = present members := rfl

theorem present_cons_some (name : String) (value : Json)
    (members : List (String × Option Json)) :
    present ((name, some value) :: members) = (name,
      value) :: present members := rfl

theorem present_names_sublist (members : List (String × Option Json)) :
    ((present members).map Prod.fst).Sublist (members.map Prod.fst) := by
  induction members with
  | nil => exact .slnil
  | cons entry members ih =>
      obtain ⟨name, _ | value⟩ := entry
      · exact ih.cons name
      · exact ih.cons_cons name

theorem length_filter_name (members : List (String × Json)) (name : String) :
    (members.filter fun entry => entry.1 == name).length =
      (members.map Prod.fst).count name := by
  rw [← List.countP_eq_length_filter, List.count, List.countP_map]
  rfl

theorem member?_present_of_notMem {members : List (String × Option Json)}
    {name : String} (h : name ∉ members.map Prod.fst) :
    member? (present members) name = none := by
  rw [member?, Option.map_eq_none_iff, List.find?_eq_none]
  intro entry hentry
  rw [beq_iff_eq]
  rintro rfl
  exact h ((present_names_sublist members).subset (List.mem_map_of_mem hentry))

theorem member?_present {members : List (String × Option Json)}
    (hnodup : (members.map Prod.fst).Nodup) {entry : String × Option Json}
    (h : entry ∈ members) : member? (present members) entry.1 = entry.2 := by
  induction members with
  | nil => exact absurd h List.not_mem_nil
  | cons first members ih =>
      obtain ⟨hfresh, hrest⟩ := List.nodup_cons.mp hnodup
      rcases List.mem_cons.mp h with rfl | hmem
      · obtain ⟨name, _ | value⟩ := entry
        · rw [present_cons_none]
          exact member?_present_of_notMem hfresh
        · simp [present_cons_some, member?]
      · have hne : first.1 ≠ entry.1 :=
          fun heq => hfresh (heq ▸ List.mem_map_of_mem hmem)
        obtain ⟨name, _ | value⟩ := first
        · exact ih hrest hmem
        · have hskip : member? ((name, value) :: present members) entry.1 =
              member? (present members) entry.1 := by
            simp [member?, hne]
          rw [present_cons_some, hskip, ih hrest hmem]

theorem fields?_record {names : List String}
    {members : List (String × Option Json)}
    (hnames : members.map Prod.fst = names) (hnodup : names.Nodup) :
    fields? names (record members) = some (members.map Prod.snd) := by
  subst hnames
  have honce : ((members.map Prod.fst).all fun name =>
      ((present members).filter fun entry => entry.1 == name).length ≤ 1) =
        true := by
    refine List.all_eq_true.mpr fun name _ => decide_eq_true ?_
    rw [length_filter_name]
    exact List.nodup_iff_count_le_one.mp
      (hnodup.sublist (present_names_sublist members)) name
  simp only [record_eq, fields?, honce, ↓reduceIte, List.map_map,
    Option.some.injEq]
  exact List.map_congr_left fun entry hentry => member?_present hnodup hentry

/-! ## Fields of one kind -/

section

variable {α : Type} {encode : α → Json} {decode : Json → Option α}

theorem requiredField_encode {a : α} (h : decode (encode a) = some a) :
    requiredField decode (some (encode a)) = some a := h

theorem optionalField_encode {o : Option α}
    (h : ∀ a ∈ o, decode (encode a) = some a) (hnull : ∀ a, encode a ≠ .null) :
    optionalField decode (o.map encode) = some o := by
  cases o with
  | none => rfl
  | some a =>
      have ha := h a rfl
      have hne := hnull a
      revert ha hne
      generalize encode a = j
      intro ha hne
      cases j <;> simp_all [optionalField]

theorem asList?_encode_map {read : α → α} {items : List α}
    (h : ∀ a ∈ items, decode (encode a) = some (read a)) :
    asList? decode (.arr (items.map encode)) = some (items.map read) := by
  rw [asList?]
  induction items with
  | nil => rfl
  | cons a items ih =>
      have ha := h a List.mem_cons_self
      have hrest := ih fun b hb => h b (List.mem_cons_of_mem _ hb)
      simp [List.mapM_cons, ha, hrest]

theorem asList?_encode {items : List α}
    (h : ∀ a ∈ items, decode (encode a) = some a) :
    asList? decode (.arr (items.map encode)) = some items := by
  have hall : asList? decode (.arr (items.map encode)) = some (items.map id) :=
    asList?_encode_map h
  rwa [List.map_id] at hall

theorem exists_of_mem_asList? {j : Json} {values : List α}
    (h : asList? decode j = some values) {a : α} (ha : a ∈ values) :
    ∃ item, decode item = some a := by
  cases j with
  | arr items =>
      rw [asList?] at h
      induction items generalizing values with
      | nil =>
          cases h
          cases ha
      | cons item items ih =>
          simp only [List.mapM_cons, Option.bind_eq_bind,
            Option.bind_eq_some_iff] at h
          obtain ⟨first, hfirst, rest, hrest, heq⟩ := h
          cases heq
          rcases List.mem_cons.mp ha with rfl | hmem
          · exact ⟨item, hfirst⟩
          · exact ih hmem hrest
  | _ => cases h

end

theorem asNat?_count {bound n : Nat} (h : n < bound) :
    asNat? bound (.int n) = some n := by
  have hrange : (0 : Int) ≤ n ∧ (n : Int) < bound := by omega
  rw [asNat?, if_pos hrange, Int.toNat_natCast]

theorem asNat?_lt {bound n : Nat} {j : Json} (h : asNat? bound j = some n) :
    n < bound := by
  cases j with
  | int i =>
      obtain ⟨hrange, hn⟩ := Option.ite_none_right_eq_some.mp h
      have := Option.some.inj hn
      omega
  | _ => simp [asNat?] at h

end Workflows.Json
