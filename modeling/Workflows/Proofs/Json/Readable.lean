import Workflows.Proofs.Json.Canonical
import Workflows.Proofs.Json.Printing
import Workflows.Proofs.Json.Reals

/-!
# Values whose text is read

A value is readable if its integers fit in 64 binary digits.  What it is read as
keeps its shape, so the two stay related when both are put in order, lose the
same members or are changed in the same places.
-/

namespace Workflows.Json

def Readable (v : Json) : Prop := ∃ w, ReadAs v w

theorem ReadAs.readable {v w : Json} (h : ReadAs v w) : Readable v := ⟨w, h⟩

theorem readable_real (x : Binary64) : Readable (.real x) := by
  obtain ⟨y, hy⟩ := exists_written_text x
  exact ⟨.real y, .real hy⟩

theorem ReadAs.exists_real {x : Binary64} {w : Json} (h : ReadAs (.real x) w) :
    ∃ y, w = .real y := by
  cases h with
  | real hwritten =>
      obtain ⟨y, hy⟩ := exists_written_text x
      exact ⟨y, Option.some.inj (hwritten.read?.symm.trans hy.read?)⟩

/-! ## Readable containers -/

theorem Readable.list {α : Type} {encode : α → Json} {items : List α}
    (h : ∀ a ∈ items, Readable (encode a)) :
    Readable (.arr (items.map encode)) := by
  suffices hall : ∃ others, ReadAllAs (items.map encode) others by
    obtain ⟨others, hothers⟩ := hall
    exact ⟨.arr others, .arr hothers⟩
  induction items with
  | nil => exact ⟨[], .nil⟩
  | cons a items ih =>
      obtain ⟨ha, hitems⟩ := List.forall_mem_cons.mp h
      obtain ⟨other, hother⟩ := ha
      obtain ⟨others, hothers⟩ := ih hitems
      exact ⟨other :: others, .cons hother hothers⟩

theorem Readable.members {members : List (String × Json)}
    (h : ∀ entry ∈ members, Readable entry.2) : Readable (.obj members) := by
  suffices hall : ∃ others, ReadMembersAs members others by
    obtain ⟨others, hothers⟩ := hall
    exact ⟨.obj others, .obj hothers⟩
  induction members with
  | nil => exact ⟨[], .nil⟩
  | cons entry members ih =>
      obtain ⟨hentry, hmembers⟩ := List.forall_mem_cons.mp h
      obtain ⟨other, hother⟩ := hentry
      obtain ⟨others, hothers⟩ := ih hmembers
      exact ⟨(entry.1, other) :: others, .cons entry.1 hother hothers⟩

theorem Readable.record {members : List (String × Option Json)}
    (h : ∀ entry ∈ members, ∀ value ∈ entry.2, Readable value) :
    Readable (record members) :=
  .members (forall_mem_recorded h)

theorem Readable.optional {α : Type} {encode : α → Json} {o : Option α}
    (h : ∀ a ∈ o, Readable (encode a)) :
    ∀ value ∈ o.map encode, Readable value :=
  Option.forall_mem_map.mpr h

/-! ## The same change on both sides -/

def isLeaf : Json → Bool
  | .arr _ | .obj _ => false
  | _ => true

theorem ReadAs.change {f : Json → Json} {v w : Json} (h : ReadAs v w)
    (hleaf : ∀ v, isLeaf v = true → f v = v)
    (harr : ∀ {items others}, ReadAllAs items others →
      ReadAs (f (.arr items)) (f (.arr others)))
    (hobj : ∀ {members others}, ReadMembersAs members others →
      ReadAs (f (.obj members)) (f (.obj others))) : ReadAs (f v) (f w) := by
  cases h with
  | arr h => exact harr h
  | obj h => exact hobj h
  | real h =>
      obtain ⟨y, rfl⟩ := (ReadAs.real h).exists_real
      rw [hleaf _ rfl, hleaf _ rfl]
      exact .real h
  | null =>
      rw [hleaf _ rfl]
      exact .null
  | bool b =>
      rw [hleaf _ rfl]
      exact .bool b
  | int hlow hhigh =>
      rw [hleaf _ rfl]
      exact .int hlow hhigh
  | str s =>
      rw [hleaf _ rfl]
      exact .str s

theorem ReadAllAs.map {f : Json → Json}
    (hf : ∀ {v w}, ReadAs v w → ReadAs (f v) (f w)) {items others : List Json}
    (h : ReadAllAs items others) :
    ReadAllAs (items.map f) (others.map f) := by
  induction items generalizing others with
  | nil =>
      cases h
      exact .nil
  | cons item items ih =>
      cases h with
      | cons hitem hitems => exact .cons (hf hitem) (ih hitems)

section

variable {members others : List (String × Json)}

theorem ReadMembersAs.map {f : String → Json → Json}
    (hf : ∀ name {v w}, ReadAs v w → ReadAs (f name v) (f name w))
    (h : ReadMembersAs members others) :
    ReadMembersAs (members.map fun (name, value) => (name, f name value))
      (others.map fun (name, value) => (name, f name value)) := by
  induction members generalizing others with
  | nil =>
      cases h
      exact .nil
  | cons entry members ih =>
      cases h with
      | cons name hvalue hmembers =>
          exact .cons name (hf name hvalue) (ih hmembers)

theorem ReadMembersAs.filter (keep : String → Bool)
    (h : ReadMembersAs members others) :
    ReadMembersAs (members.filter fun entry => keep entry.1)
      (others.filter fun entry => keep entry.1) := by
  induction members generalizing others with
  | nil =>
      cases h
      exact .nil
  | cons entry members ih =>
      cases h with
      | cons name hvalue hmembers =>
          rw [List.filter_cons, List.filter_cons]
          split
          · exact .cons name hvalue (ih hmembers)
          · exact ih hmembers

/-! ## The canonical form on both sides -/

theorem ReadMembersAs.isSome_member? (name : String)
    (h : ReadMembersAs members others) :
    (member? members name).isSome = (member? others name).isSome := by
  induction members generalizing others with
  | nil =>
      cases h
      rfl
  | cons entry members ih =>
      cases h with
      | cons first hfirst hmembers =>
          rw [member?_cons, member?_cons]
          split
          · rfl
          · exact ih hmembers

theorem ReadMembersAs.insertMember (name : String) {value other : Json}
    (hvalue : ReadAs value other) (h : ReadMembersAs members others) :
    ReadMembersAs (insertMember name value members)
      (insertMember name other others) := by
  induction members generalizing others with
  | nil =>
      cases h
      exact .cons name hvalue .nil
  | cons entry members ih =>
      cases h with
      | cons first hfirst hmembers =>
          rw [Json.insertMember, Json.insertMember]
          split
          · exact .cons name hvalue (.cons first hfirst hmembers)
          · split
            · exact .cons name hvalue hmembers
            · exact .cons first hfirst (ih hmembers)

end

mutual

theorem ReadAs.canonical {v w : Json} :
    ReadAs v w → ReadAs v.canonical w.canonical
  | .null => .null
  | .bool b => .bool b
  | .int hlow hhigh => .int hlow hhigh
  | .real h => by
      obtain ⟨y, rfl⟩ := (ReadAs.real h).exists_real
      exact .real h
  | .str s => .str s
  | .arr h => .arr h.canonicalItems
  | .obj h => .obj h.canonicalMembers

theorem ReadAllAs.canonicalItems {items others : List Json} :
    ReadAllAs items others →
    ReadAllAs (Json.canonicalItems items) (Json.canonicalItems others)
  | .nil => .nil
  | .cons hitem hitems => .cons hitem.canonical hitems.canonicalItems

theorem ReadMembersAs.canonicalMembers {members others : List (String × Json)} :
    ReadMembersAs members others →
      ReadMembersAs (Json.canonicalMembers members)
        (Json.canonicalMembers others)
  | .nil => .nil
  | .cons name hvalue hmembers => by
      have hsorted := hmembers.canonicalMembers
      simp only [Json.canonicalMembers, hsorted.isSome_member? name]
      split
      · exact hsorted
      · exact hsorted.insertMember name hvalue.canonical

end

end Workflows.Json
