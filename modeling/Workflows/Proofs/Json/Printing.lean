import Mathlib.Algebra.Group.Int.Defs
import Mathlib.Data.Option.Basic
import Workflows.Json.Decode
import Workflows.Proofs.Json.Grammar

/-!
# Reading printed values back

`ReadAs v w` relates a value to the one that its text is read as, compact or
pretty: `w` is `v` with every floating-point number replaced by what the reader
makes of its digits.
-/

namespace Workflows.Json

mutual

inductive ReadAs : Json → Json → Prop
  | null : ReadAs .null .null
  | bool (b : Bool) : ReadAs (.bool b) (.bool b)
  | int {i : Int} : -2 ^ 63 ≤ i → i < 2 ^ 64 → ReadAs (.int i) (.int i)
  | real {x : Binary64} {w : Json} :
      Written w (x.text layout) → ReadAs (.real x) w
  | str (s : String) : ReadAs (.str s) (.str s)
  | arr {items others} :
      ReadAllAs items others → ReadAs (.arr items) (.arr others)
  | obj {members others} :
      ReadMembersAs members others → ReadAs (.obj members) (.obj others)

inductive ReadAllAs : List Json → List Json → Prop
  | nil : ReadAllAs [] []
  | cons {item other items others} :
      ReadAs item other → ReadAllAs items others →
      ReadAllAs (item :: items) (other :: others)

inductive ReadMembersAs : List (String × Json) → List (String × Json) → Prop
  | nil : ReadMembersAs [] []
  | cons (name) {value other members others} : ReadAs value other →
      ReadMembersAs members others →
      ReadMembersAs ((name, value) :: members) ((name, other) :: others)

end

/-! ## Numbers -/

theorem intText_written {i : Int} (hlow : -2 ^ 63 ≤ i) (hhigh : i < 2 ^ 64) :
    Written (.int i) (intText i) := by
  rcases Int.lt_or_le i 0 with h | h
  · have hvalue : -(i.natAbs : Int) = i := by omega
    rw [intText, if_pos h, ← hvalue, Int.natAbs_neg, Int.natAbs_natCast]
    exact .minus (.negOfNat (by omega) (by omega))
  · have hvalue : (i.natAbs : Int) = i := by omega
    rw [intText, if_neg (by omega), ← hvalue, Int.natAbs_natCast]
    exact .number (.ofNat (by omega))

theorem whole_written (negative : Bool) {n : Nat} (hn : n < 2 ^ 40) :
    Written (.real (.whole negative n))
      ((Binary64.whole negative n).text layout) := by
  rw [Binary64.text_whole (by decide) (by decide) negative hn]
  cases negative with
  | false => exact .number (.whole false hn)
  | true => exact .minus (.whole true hn)

theorem ReadAs.whole (negative : Bool) {n : Nat} (hn : n < 2 ^ 40) :
    ReadAs (.real (.whole negative n)) (.real (.whole negative n)) :=
  .real (whole_written negative hn)

theorem ReadAs.ofNat {n : Nat} (hn : n < 2 ^ 64) : ReadAs (.int n) (.int n) :=
  .int (by omega) (by omega)

/-! ## The compact form -/

mutual

theorem ReadAs.written {v w : Json} : ReadAs v w → Written w v.render
  | .null => .null
  | .bool true => .true
  | .bool false => .false
  | .int hlow hhigh => intText_written hlow hhigh
  | .real h => h
  | .str s => .str s
  | .arr .nil => .noItems
  | .arr (.cons hitem hitems) => .items .nil hitem.written hitems.written
  | .obj .nil => .noMembers
  | .obj (.cons name hvalue hmembers) =>
      .members name .nil .nil hvalue.written hmembers.written

theorem ReadAllAs.written {items others : List Json} :
    ReadAllAs items others → WrittenItems others (renderItems items)
  | .nil => .done .nil
  | .cons hitem hitems => .item .nil hitem.written hitems.written

theorem ReadMembersAs.written {members others : List (String × Json)} :
    ReadMembersAs members others → WrittenMembers others (renderMembers members)
  | .nil => .done .nil
  | .cons name hvalue hmembers =>
      .member name .nil .nil hvalue.written hmembers.written

end

/-! ## The pretty form -/

theorem newLine_blank (depth : Nat) : Blank (newLine depth) := by
  intro c hc
  rcases List.mem_cons.mp hc with rfl | hc
  · rfl
  · rw [List.eq_of_mem_replicate hc]
    rfl

theorem Blank.blank : Blank [' '] := by simp [Blank, isSeparator]

mutual

theorem ReadAs.writtenPretty (depth : Nat) {v w : Json} :
    ReadAs v w → Written w (v.renderPretty depth)
  | .null => .null
  | .bool true => .true
  | .bool false => .false
  | .int hlow hhigh => intText_written hlow hhigh
  | .real h => h
  | .str s => .str s
  | .arr .nil => .noItems
  | .arr (.cons hitem hitems) => by
      have h :=
        Written.items (newLine_blank (depth + 1))
          (hitem.writtenPretty (depth + 1))
        (hitems.writtenPretty depth)
      simpa only [renderPretty, List.append_assoc] using h
  | .obj .nil => .noMembers
  | .obj (.cons name hvalue hmembers) => by
      have h := Written.members name (newLine_blank (depth + 1)) .blank
        (hvalue.writtenPretty (depth + 1)) (hmembers.writtenPretty depth)
      simpa only [renderPretty, List.append_assoc,
        List.singleton_append] using h

theorem ReadAllAs.writtenPretty (depth : Nat) {items others : List Json} :
    ReadAllAs items others → WrittenItems others (renderPrettyItems depth items)
  | .nil => .done (newLine_blank depth)
  | .cons hitem hitems => by
      have h :=
        WrittenItems.item (newLine_blank (depth + 1))
          (hitem.writtenPretty (depth + 1))
        (hitems.writtenPretty depth)
      simpa only [renderPrettyItems, List.append_assoc] using h

theorem ReadMembersAs.writtenPretty (depth : Nat)
    {members others : List (String × Json)} :
    ReadMembersAs members others →
    WrittenMembers others (renderPrettyMembers depth members)
  | .nil => .done (newLine_blank depth)
  | .cons name hvalue hmembers => by
      have h := WrittenMembers.member name (newLine_blank (depth + 1)) .blank
        (hvalue.writtenPretty (depth + 1)) (hmembers.writtenPretty depth)
      simpa only [renderPrettyMembers, List.append_assoc,
        List.singleton_append] using h

end

/-! ## Reading back -/

theorem ReadAs.parse?_compact {v w : Json} (h : ReadAs v w) :
    parse? v.compact = some w := by
  rw [parse?, compact, String.toList_ofList]
  exact h.written.read?

theorem ReadAs.parse?_pretty {v w : Json} (h : ReadAs v w) :
    parse? v.pretty = some w := by
  rw [parse?, pretty, String.toList_ofList]
  exact (h.writtenPretty 0).read?

/-! ## Values that are read as they are -/

theorem ReadAs.list {α : Type} {encode : α → Json} {items : List α}
    (h : ∀ a ∈ items, ReadAs (encode a) (encode a)) :
    ReadAs (.arr (items.map encode)) (.arr (items.map encode)) := by
  refine .arr ?_
  induction items with
  | nil => exact .nil
  | cons a items ih =>
      exact .cons (h a List.mem_cons_self) (ih fun b hb =>
        h b (List.mem_cons_of_mem _ hb))

theorem ReadAs.members {members : List (String × Json)}
    (h : ∀ entry ∈ members, ReadAs entry.2 entry.2) :
    ReadAs (.obj members) (.obj members) := by
  refine .obj ?_
  induction members with
  | nil => exact .nil
  | cons entry members ih =>
      exact .cons entry.1 (h entry List.mem_cons_self)
        (ih fun other hother => h other (List.mem_cons_of_mem _ hother))

theorem forall_mem_recorded {p : Json → Prop}
    {members : List (String × Option Json)}
    (h : ∀ entry ∈ members, ∀ value ∈ entry.2, p value) :
    ∀ entry ∈ members.filterMap fun (name, value) =>
      value.map (name, ·), p entry.2 := by
  intro entry hentry
  obtain ⟨⟨name, value⟩, hmember, hvalue⟩ := List.mem_filterMap.mp hentry
  obtain ⟨held, hheld, rfl⟩ := Option.map_eq_some_iff.mp hvalue
  exact h _ hmember held hheld

theorem ReadAs.record {members : List (String × Option Json)}
    (h : ∀ entry ∈ members, ∀ value ∈ entry.2, ReadAs value value) :
    ReadAs (record members) (record members) :=
  .members (forall_mem_recorded h)

theorem ReadAs.optional {α : Type} {encode : α → Json} {o : Option α}
    (h : ∀ a ∈ o, ReadAs (encode a) (encode a)) :
    ∀ value ∈ o.map encode, ReadAs value value :=
  Option.forall_mem_map.mpr h

end Workflows.Json
