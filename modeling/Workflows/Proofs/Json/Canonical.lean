import Mathlib.Data.String.Basic
import Workflows.Json.Basic

/-!
# Free-form data in order

Free-form data is held with the members of every object in the order of their
names, each name once.  The canonical form of a value is in order, and a value
in order is its own canonical form.
-/

namespace Workflows.Json

mutual

/-- Every object in the value has its members in the order of their names, each
name once. -/
def InOrder : Json → Prop
  | .arr items => ItemsInOrder items
  | .obj members => MembersInOrder members
  | _ => True

def ItemsInOrder : List Json → Prop
  | [] => True
  | item :: rest => InOrder item ∧ ItemsInOrder rest

def MembersInOrder : List (String × Json) → Prop
  | [] => True
  | (name, value) :: rest =>
      (∀ entry ∈ rest, name < entry.1) ∧ InOrder value ∧ MembersInOrder rest

end

mutual

def decideInOrder : (j : Json) → Decidable (InOrder j)
  | .arr items => decideItemsInOrder items
  | .obj members => decideMembersInOrder members
  | .null | .bool _ | .int _ | .real _ | .str _ => .isTrue trivial

def decideItemsInOrder : (items : List Json) → Decidable (ItemsInOrder items)
  | [] => .isTrue trivial
  | item :: rest =>
      @instDecidableAnd _ _ (decideInOrder item) (decideItemsInOrder rest)

def decideMembersInOrder :
    (members : List (String × Json)) → Decidable (MembersInOrder members)
  | [] => .isTrue trivial
  | (_, value) :: rest =>
      @instDecidableAnd _ _ inferInstance
        (@instDecidableAnd _ _ (decideInOrder value)
          (decideMembersInOrder rest))

end

instance (j : Json) : Decidable (InOrder j) := decideInOrder j

instance (members : List (String × Json)) :
    Decidable (MembersInOrder members) :=
  decideMembersInOrder members

/-! ## Parts of data in order -/

theorem itemsInOrder_iff {items : List Json} :
    ItemsInOrder items ↔ ∀ item ∈ items, InOrder item := by
  induction items with
  | nil => simp [ItemsInOrder]
  | cons item rest ih => simp [ItemsInOrder, ih]

theorem membersInOrder_iff {members : List (String × Json)} :
    MembersInOrder members ↔
      members.Pairwise (fun entry other => entry.1 < other.1) ∧
        ∀ entry ∈ members, InOrder entry.2 := by
  induction members with
  | nil => simp [MembersInOrder]
  | cons entry rest ih =>
      obtain ⟨name, value⟩ := entry
      simp only [MembersInOrder, ih, List.pairwise_cons, List.forall_mem_cons]
      tauto

section

variable {members : List (String × Json)} {name other : String} {value : Json}

theorem mem_of_member? (h : member? members name = some value) :
    (name, value) ∈ members := by
  obtain ⟨⟨found, held⟩, hfind, rfl⟩ := Option.map_eq_some_iff.mp h
  have hname : found = name := by simpa using List.find?_some hfind
  exact hname ▸ List.mem_of_find?_eq_some hfind

theorem member?_eq_none_iff : member? members name = none ↔ ∀ entry ∈ members,
    entry.1 ≠ name := by
  simp [member?]

theorem member?_cons (entry : String × Json) (members : List (String × Json))
    (name : String) :
    member? (entry :: members) name =
      if entry.1 = name then some entry.2 else member? members name := by
  by_cases h : entry.1 = name <;> simp [member?, h]

theorem member?_filter_of_kept (keep : String → Bool) (h : keep name = true) :
    member? (members.filter fun entry => keep entry.1) name =
      member? members name := by
  induction members with
  | nil => rfl
  | cons entry members ih =>
      rw [List.filter_cons]
      split
      · rw [member?_cons, member?_cons, ih]
      · next hdropped =>
          have hne : entry.1 ≠ name := by
            rintro rfl
            exact hdropped h
          rw [ih, member?_cons, if_neg hne]

theorem MembersInOrder.of_member? (h : MembersInOrder members)
    (hvalue : member? members name = some value) : InOrder value :=
  (membersInOrder_iff.mp h).2 _ (mem_of_member? hvalue)

theorem MembersInOrder.filter (h : MembersInOrder members)
    (p : String × Json → Bool) :
    MembersInOrder (members.filter p) := by
  obtain ⟨hnames, hvalues⟩ := membersInOrder_iff.mp h
  exact membersInOrder_iff.mpr
    ⟨hnames.filter p, fun entry hentry =>
      hvalues entry (List.mem_of_mem_filter hentry)⟩

/-! ## Insertion -/

theorem mem_insertMember {entry : String × Json}
    (h : entry ∈ insertMember name value members) :
    entry = (name, value) ∨ entry ∈ members := by
  induction members with
  | nil => exact .inl (List.mem_singleton.mp h)
  | cons first rest ih =>
      obtain ⟨other, held⟩ := first
      rw [insertMember] at h
      split at h
      · exact List.mem_cons.mp h
      · split at h
        · exact (List.mem_cons.mp h).imp_right (List.mem_cons_of_mem _)
        · rcases List.mem_cons.mp h with rfl | hrest
          · exact .inr List.mem_cons_self
          · exact (ih hrest).imp_right (List.mem_cons_of_mem _)

theorem member?_insertMember_self (value : Json) :
    member? (insertMember name value members) name = some value := by
  induction members with
  | nil => simp [insertMember, member?]
  | cons entry members ih =>
      rw [insertMember]
      split
      · simp [member?_cons]
      · split
        · simp [member?_cons]
        · next hne => rw [member?_cons, if_neg fun heq => hne heq.symm, ih]

theorem member?_insertMember_of_ne (value : Json) (h : other ≠ name) :
    member? (insertMember name value members) other =
      member? members other := by
  induction members with
  | nil => simp [insertMember, member?, h.symm]
  | cons entry members ih =>
      rw [insertMember]
      split
      · rw [member?_cons, if_neg h.symm]
      · split
        · next heq => simp [member?_cons, ← heq, h.symm]
        · rw [member?_cons, member?_cons, ih]

theorem insertMember_eq_cons (h : ∀ entry ∈ members, name < entry.1) :
    insertMember name value members = (name, value) :: members := by
  cases members with
  | nil => rfl
  | cons first rest =>
      obtain ⟨other, held⟩ := first
      rw [insertMember, if_pos (h _ List.mem_cons_self)]

theorem MembersInOrder.insertMember (h : MembersInOrder members) (name : String)
    (hvalue : InOrder value) :
    MembersInOrder (Json.insertMember name value members) := by
  induction members with
  | nil => exact ⟨nofun, hvalue, trivial⟩
  | cons first rest ih =>
      obtain ⟨other, held⟩ := first
      obtain ⟨hafter, hheld, hrest⟩ := h
      rw [Json.insertMember]
      split
      · next hbefore =>
          refine ⟨List.forall_mem_cons.mpr ⟨hbefore, fun entry hentry => ?_⟩,
            hvalue, hafter, hheld, hrest⟩
          exact hbefore.trans (hafter entry hentry)
      · next hnotBefore =>
          split
          · next hsame => exact ⟨hsame ▸ hafter, hvalue, hrest⟩
          · next hdiffers =>
              have hother : other < name :=
                lt_of_le_of_ne (not_lt.mp hnotBefore) (Ne.symm hdiffers)
              refine ⟨fun entry hentry => ?_, hheld, ih hrest⟩
              rcases mem_insertMember hentry with rfl | hold
              · exact hother
              · exact hafter entry hold

end

/-! ## The canonical form -/

mutual

theorem InOrder.canonical_eq : (j : Json) → InOrder j → canonical j = j
  | .arr items, h => congrArg Json.arr (ItemsInOrder.canonicalItems_eq items h)
  | .obj members, h =>
      congrArg Json.obj (MembersInOrder.canonicalMembers_eq members h)
  | .null, _ | .bool _, _ | .int _, _ | .real _, _ | .str _, _ => rfl

theorem ItemsInOrder.canonicalItems_eq :
    (items : List Json) → ItemsInOrder items → canonicalItems items = items
  | [], _ => rfl
  | item :: rest, ⟨hitem, hrest⟩ => by
      rw [canonicalItems, InOrder.canonical_eq item hitem,
        ItemsInOrder.canonicalItems_eq rest hrest]

theorem MembersInOrder.canonicalMembers_eq :
    (members : List (String × Json)) → MembersInOrder members →
      canonicalMembers members = members
  | [], _ => rfl
  | (name, value) :: rest, ⟨hafter, hvalue, hrest⟩ => by
      have hfresh : member? rest name = none :=
        member?_eq_none_iff.mpr fun entry hentry => (hafter entry hentry).ne'
      rw [canonicalMembers, MembersInOrder.canonicalMembers_eq rest hrest,
        InOrder.canonical_eq value hvalue]
      simp [hfresh, insertMember_eq_cons hafter]

end

mutual

theorem inOrder_canonical : (j : Json) → InOrder (canonical j)
  | .arr items => itemsInOrder_canonicalItems items
  | .obj members => membersInOrder_canonicalMembers members
  | .null | .bool _ | .int _ | .real _ | .str _ => trivial

theorem itemsInOrder_canonicalItems :
    (items : List Json) → ItemsInOrder (canonicalItems items)
  | [] => trivial
  | item :: rest => ⟨inOrder_canonical item, itemsInOrder_canonicalItems rest⟩

theorem membersInOrder_canonicalMembers :
    (members : List (String × Json)) → MembersInOrder (canonicalMembers members)
  | [] => trivial
  | (name, value) :: rest => by
      have hrest := membersInOrder_canonicalMembers rest
      simp only [canonicalMembers]
      split
      · exact hrest
      · exact hrest.insertMember name (inOrder_canonical value)

end

end Workflows.Json
