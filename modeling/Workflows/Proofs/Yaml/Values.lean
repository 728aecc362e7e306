import Workflows.Proofs.Json.Canonical
import Workflows.Yaml.Value

/-!
# The values of YAML texts

A scalar has a value without parts, and whatever a text is read as is free-form
data in order.
-/

namespace Workflows

def Json.IsAtom : Json → Prop
  | .arr _ | .obj _ => False
  | _ => True

theorem Json.IsAtom.inOrder {j : Json} (h : j.IsAtom) : j.InOrder := by
  cases j with
  | arr items => exact h.elim
  | obj members => exact h.elim
  | _ => trivial

namespace Yaml

open Json

/-! ## Scalars -/

theorem isAtom_of_real? {s : String} {j : Json} (h : real? s = some j) :
    j.IsAtom := by
  unfold real? at h
  split at h
  · cases h
    trivial
  · obtain ⟨x, -, rfl⟩ := Option.map_eq_some_iff.mp h
    trivial

theorem isAtom_of_integerValue? {s : String} {j : Json}
    (h : integerValue? s = some (some j)) :
    j.IsAtom := by
  unfold integerValue? at h
  split at h
  · cases h
  · split at h <;> cases h
    trivial

theorem isAtom_of_plainValue? {s : String} {j : Json}
    (h : plainValue? s = some j) :
    j.IsAtom := by
  unfold plainValue? at h
  split at h
  · cases h
    trivial
  · split at h
    · cases h
      trivial
    · split at h
      · next value hinteger => exact isAtom_of_integerValue? (h ▸ hinteger)
      · split at h
        · cases h
          trivial
        · cases hreal : real? s with
          | none =>
              rw [hreal] at h
              cases h
              trivial
          | some value =>
              rw [hreal] at h
              cases h
              exact isAtom_of_real? hreal

theorem isAtom_of_taggedValue? {tag s : String} {j : Json}
    (h : taggedValue? tag s = some j) :
    j.IsAtom := by
  unfold taggedValue? at h
  split at h
  · cases h
  split at h
  · obtain ⟨b, -, rfl⟩ := Option.map_eq_some_iff.mp h
    trivial
  split at h
  · exact isAtom_of_integerValue? (Option.join_eq_some_iff.mp h)
  split at h
  · exact isAtom_of_real? h
  split at h
  · split at h <;> cases h
    trivial
  · cases h
    trivial

theorem isAtom_of_scalarValue? {tag : Option String} {s : String} {plain : Bool}
    {j : Json} (h : scalarValue? tag s plain = some j) : j.IsAtom := by
  cases tag with
  | some tag => exact isAtom_of_taggedValue? h
  | none =>
      cases plain with
      | true => exact isAtom_of_plainValue? h
      | false =>
          cases h
          trivial

theorem plainValue?_eq_str {s : String} (hnull : isNullWord s = false)
    (htruth : truthWord? s = none) (hinteger : integer? s.toList = none)
    (hreal : real? s = none) (hne : s ≠ "") :
    plainValue? s = some (.str s) := by
  have hempty : s.isEmpty = false := by
    rw [Bool.eq_false_iff]
    exact fun hempty => hne (String.isEmpty_iff.mp hempty)
  rw [plainValue?, hempty, hnull, htruth, integerValue?, hinteger, hreal]
  cases hasPaddedDigits s <;> rfl

theorem not_startsWith_of_ne {s t : String} {c d : Char} {rest more : List Char}
    (hs : s.toList = c :: rest) (ht : t.toList = d :: more) (hne : c ≠ d) :
    s.startsWith t = false := by
  rw [String.startsWith_string_eq_false_iff, hs, ht]
  rintro ⟨left, hleft⟩
  exact hne (List.cons.inj hleft).1.symm

theorem real?_of_unsigned {s : String} {c : Char} {rest : List Char}
    (hs : s.toList = c :: rest) (hplus : c ≠ '+') (hminus : c ≠ '-')
    (hpoint : c ≠ '.') :
    real? s = (decimal? s.toList).map .real := by
  have hplain : s.startsWith "+" = false ∧ s.startsWith "-" = false :=
    ⟨not_startsWith_of_ne hs rfl hplus, not_startsWith_of_ne hs rfl hminus⟩
  have hword : ∀ t ∈ [".inf", ".Inf", ".INF", ".nan", ".NaN", ".NAN"],
      s ≠ t := by
    have hpoints : ∀ t ∈ [".inf", ".Inf", ".INF", ".nan", ".NaN", ".NAN"],
        ∃ more, t.toList = '.' :: more := by
      simp
    rintro t ht rfl
    obtain ⟨more, hmore⟩ := hpoints s ht
    exact hpoint (List.cons.inj (hs.symm.trans hmore)).1
  simp only [List.forall_mem_cons] at hword
  simp [real?, isInfinity, isNotANumber, hplain, hword]

/-! A text that starts with a letter is no number. -/

section Letter

variable {c : Char} (h : c.isAlpha = true) (rest : List Char)

include h

theorem toNat_of_isAlpha :
    65 ≤ c.toNat ∧ c.toNat ≤ 90 ∨ 97 ≤ c.toNat ∧ c.toNat ≤ 122 := by
  rcases (Bool.or_eq_true _ _).mp h with hupper | hlower
  · exact .inl (of_decide_eq_true hupper)
  · obtain ⟨hlow, hhigh⟩ := (Bool.and_eq_true _ _).mp hlower
    exact .inr ⟨of_decide_eq_true hlow, of_decide_eq_true hhigh⟩

theorem ne_of_isAlpha {d : Char} (hd : d.isAlpha = false) : c ≠ d := by
  rintro rfl
  exact Bool.false_ne_true (hd.symm.trans h)

theorem isDigit_of_isAlpha : c.isDigit = false := by
  have hrange := toNat_of_isAlpha h
  have hnine : ¬ c.toNat ≤ 57 := by omega
  simp [Char.isDigit, UInt32.le_iff_toNat_le, hnine]

theorem digitIn?_of_isAlpha : digitIn? 10 c = none := by
  have hrange := toNat_of_isAlpha h
  unfold digitIn? hexDigit?
  split
  · next hdigit =>
      have hnine : c.toNat ≤ 57 := hdigit.2
      omega
  split
  · next hlower =>
      have ha : 97 ≤ c.toNat := hlower.1
      rw [Option.bind_some, if_neg (by omega)]
  split
  · rw [Option.bind_some, if_neg (by omega)]
  · rfl

theorem natural?_of_isAlpha : natural? 10 (c :: rest) = none := by
  simp [natural?, digitIn?_of_isAlpha h]

theorem magnitude?_of_isAlpha : magnitude? (c :: rest) = none := by
  have hzero : c ≠ '0' := ne_of_isAlpha h rfl
  unfold magnitude?
  split
  · simp_all
  · simp_all
  · simp_all
  · split
    · rfl
    · exact natural?_of_isAlpha h rest

theorem integer?_of_isAlpha : integer? (c :: rest) = none := by
  have hplus : c ≠ '+' := ne_of_isAlpha h rfl
  have hminus : c ≠ '-' := ne_of_isAlpha h rfl
  unfold integer?
  split
  · simp_all
  · simp_all
  · rw [magnitude?_of_isAlpha h]
    rfl

theorem decimal?_of_isAlpha : decimal? (c :: rest) = none := by
  have hplus : c ≠ '+' := ne_of_isAlpha h rfl
  have hminus : c ≠ '-' := ne_of_isAlpha h rfl
  have hpoint : c ≠ '.' := ne_of_isAlpha h rfl
  unfold decimal?
  split
  · simp_all
  · simp_all
  · simp [unsignedDecimal?, isDigit_of_isAlpha h, natural?, hpoint]

end Letter

/-- Apart from the words for null and the truth values, a text that starts with
a letter is its own value. -/
theorem plainValue?_of_isAlpha {s : String} {c : Char} {rest : List Char}
    (hs : s.toList = c :: rest) (hc : c.isAlpha = true)
    (hnull : isNullWord s = false) (htruth : truthWord? s = none) :
    plainValue? s = some (.str s) := by
  have hinteger : integer? s.toList = none := by rw [hs, integer?_of_isAlpha hc]
  have hreal : real? s = none := by
    rw [real?_of_unsigned hs (ne_of_isAlpha hc rfl) (ne_of_isAlpha hc rfl)
      (ne_of_isAlpha hc rfl), hs, decimal?_of_isAlpha hc]
    rfl
  refine plainValue?_eq_str hnull htruth hinteger hreal ?_
  rintro rfl
  cases hs

/-! ## Nodes -/

namespace Node

variable {anchors : Anchors} {limit : Nat}

theorem itemsInOrder_of_valueItems?
    {read : Node Nat → Nat → Option (Json × Nat)} (hread : ∀ node jumps j left,
      read node jumps = some (j, left) → j.InOrder)
    {nodes : List (Node Nat)} {jumps left : Nat} {items : List Json}
    (h : valueItems? read nodes jumps = some (items, left)) :
    ItemsInOrder items := by
  induction nodes generalizing jumps items with
  | nil =>
      cases h
      trivial
  | cons node rest ih =>
      simp only [valueItems?, Option.bind_eq_bind, Option.pure_def,
        Option.bind_eq_some_iff] at h
      obtain ⟨⟨item, jumps'⟩, hitem, ⟨more, left'⟩, hmore, hitems⟩ := h
      cases hitems
      exact ⟨hread _ _ _ _ hitem, ih hmore⟩

theorem inOrder_of_value? {depth : Nat} {node : Node Nat} {jumps left : Nat}
    {j : Json} (h : value? anchors limit depth node jumps = some (j, left)) :
    j.InOrder := by
  induction depth using Nat.strongRecOn generalizing node jumps j left with
  | ind depth ih =>
      rw [value?] at h
      obtain ⟨⟨target, jumps'⟩, -, h⟩ := Option.bind_eq_some_iff.mp h
      cases target with
      | scalar p text plain =>
          obtain ⟨value, hvalue, heq⟩ := Option.map_eq_some_iff.mp h
          cases heq
          exact (isAtom_of_scalarValue? hvalue).inOrder
      | sequence p nodes =>
          cases depth with
          | zero => cases h
          | succ depth =>
              obtain ⟨-, h⟩ := Option.ite_none_left_eq_some.mp h
              obtain ⟨⟨items, left'⟩, hitems, heq⟩ :=
                Option.bind_eq_some_iff.mp h
              cases heq
              exact itemsInOrder_of_valueItems?
                (fun _ _ _ _ hitem => ih depth (Nat.lt_succ_self depth) hitem)
                hitems
      | mapping p entries =>
          cases depth with
          | zero => cases h
          | succ depth =>
              obtain ⟨-, h⟩ := Option.ite_none_left_eq_some.mp h
              obtain ⟨⟨members, left'⟩, -, heq⟩ := Option.bind_eq_some_iff.mp h
              cases heq
              exact membersInOrder_canonicalMembers members
      | _ => cases h

end Node

theorem inOrder_of_read? {text : List Char} {j : Json}
    (h : read? text = some j) :
    j.InOrder := by
  simp only [read?, Option.bind_eq_bind, Option.bind_eq_some_iff] at h
  obtain ⟨ts, -, root, -, h⟩ := h
  cases root with
  | none =>
      cases h
      trivial
  | some root =>
      simp only [Option.bind_eq_some_iff] at h
      obtain ⟨⟨linked, anchors⟩, -, ⟨value, left⟩, hvalue, heq⟩ := h
      cases heq
      exact Node.inOrder_of_value? hvalue

end Yaml

end Workflows
