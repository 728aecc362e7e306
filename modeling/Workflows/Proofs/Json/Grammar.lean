import Workflows.Proofs.Json.Tokens

/-!
# What JSON text is read as

`Written v s` says that the text `s` is the value `v`, with any blanks between
its parts.  The reader finds the value of every such text: it needs no more fuel
than the text has characters, since it passes at least one of them on each
level.
-/

namespace Workflows.Json

def Blank (s : List Char) : Prop := ∀ c ∈ s, isSeparator c = true

mutual

inductive Written : Json → List Char → Prop
  | null : Written .null ['n', 'u', 'l', 'l']
  | true : Written (.bool true) ['t', 'r', 'u', 'e']
  | false : Written (.bool false) ['f', 'a', 'l', 's', 'e']
  | number {v s} : NumberText false s v → Written v s
  | minus {v s} : NumberText true s v → Written v ('-' :: s)
  | str (s : String) : Written (.str s) (quote s.toList)
  | noItems : Written (.arr []) ['[', ']']
  | items {item rest b s t} : Blank b → Written item s → WrittenItems rest t →
      Written (.arr (item :: rest)) ('[' :: (b ++ (s ++ t)))
  | noMembers : Written (.obj []) ['{', '}']
  | members (name) {value rest b c s t} : Blank b → Blank c → Written value s →
      WrittenMembers rest t →
      Written (.obj ((name, value) :: rest))
        ('{' :: (b ++ (quote name.toList ++ ':' :: (c ++ (s ++ t)))))

inductive WrittenItems : List Json → List Char → Prop
  | done {b} : Blank b → WrittenItems [] (b ++ [']'])
  | item {item rest b s t} : Blank b → Written item s → WrittenItems rest t →
      WrittenItems (item :: rest) (',' :: (b ++ (s ++ t)))

inductive WrittenMembers : List (String × Json) → List Char → Prop
  | done {b} : Blank b → WrittenMembers [] (b ++ ['}'])
  | member (name) {value rest b c s t} : Blank b → Blank c → Written value s →
      WrittenMembers rest t →
      WrittenMembers ((name, value) :: rest)
        (',' :: (b ++ (quote name.toList ++ ':' :: (c ++ (s ++ t)))))

end

/-! ## Blanks -/

theorem Blank.nil : Blank [] := by simp [Blank]

theorem skip_blank {b : List Char} (hb : Blank b) {c : Char}
    (hc : isSeparator c = false) (s : List Char) :
    skip (b ++ c :: s) = c :: s := by
  rw [skip, List.dropWhile_append_of_pos hb,
    List.dropWhile_cons_of_neg (by simp [hc])]

theorem skip_cons {c : Char} (hc : isSeparator c = false) (s : List Char) :
    skip (c :: s) = c :: s := skip_blank .nil hc s

def startsValue (c : Char) : Bool := !isSeparator c && c != ']' && c != '}'

theorem startsValue_iff {c : Char} :
    startsValue c = true ↔ isSeparator c = false ∧ c ≠ ']' ∧ c ≠ '}' := by
  simp [startsValue, and_assoc]

theorem isDigit_ne {c d : Char} (hc : c.isDigit = true)
    (hd : d.isDigit = false) : c ≠ d := by
  rintro rfl
  simp [hc] at hd

theorem isDigit_startsValue {c : Char} (h : c.isDigit = true) :
    startsValue c = true := by
  have hne : ∀ {d : Char}, d.isDigit = false → c ≠ d := isDigit_ne h
  simp [startsValue, isSeparator, hne]

def StartsValue (s : List Char) : Prop :=
  ∃ c t, s = c :: t ∧ startsValue c = true

theorem StartsValue.append {s : List Char} (h : StartsValue s) (t : List Char) :
    StartsValue (s ++ t) := by
  obtain ⟨c, s, rfl, hc⟩ := h
  exact ⟨c, s ++ t, rfl, hc⟩

theorem Written.starts {v : Json} {s : List Char} (h : Written v s) :
    StartsValue s := by
  cases h with
  | number h =>
      obtain ⟨c, t, hct, hc⟩ := h.head
      exact ⟨c, t, hct, isDigit_startsValue hc⟩
  | _ => exact ⟨_, _, rfl, by decide⟩

theorem StartsValue.quote (s : List Char) : StartsValue (quote s) :=
  ⟨_, _, rfl, by decide⟩

/-! ## The reader on its first character -/

theorem value?_blank (fuel : Nat) {b s : List Char} (hb : Blank b)
    (hs : StartsValue s) :
    value? fuel (b ++ s) = value? fuel s := by
  obtain ⟨c, t, rfl, hc⟩ := hs
  obtain ⟨hsep, -⟩ := startsValue_iff.mp hc
  cases fuel with
  | zero => rfl
  | succ fuel => rw [value?, value?, skip_blank hb hsep, skip_cons hsep]

theorem pair?_blank (fuel : Nat) {b s : List Char} (hb : Blank b)
    (hs : StartsValue s) :
    pair? fuel (b ++ s) = pair? fuel s := by
  obtain ⟨c, t, rfl, hc⟩ := hs
  obtain ⟨hsep, -⟩ := startsValue_iff.mp hc
  cases fuel with
  | zero => rfl
  | succ fuel => rw [pair?, pair?, skip_blank hb hsep, skip_cons hsep]

theorem value?_digit (fuel : Nat) {c : Char} (hc : c.isDigit = true)
    (s : List Char) :
    value? (fuel + 1) (c :: s) = number? false (c :: s) := by
  have hne : ∀ {d : Char}, d.isDigit = false → c ≠ d := isDigit_ne hc
  have hsep : isSeparator c = false := by simp [isSeparator, hne]
  rw [value?, skip_cons hsep]
  split <;> simp_all

theorem value?_items (fuel : Nat) {b : List Char} (hb : Blank b) {s : List Char}
    (hs : StartsValue s) :
    value? (fuel + 1) ('[' :: (b ++ s)) = (do
      let (item, rest) ← value? fuel s
      let (more, rest) ← items? fuel rest
      return (.arr (item :: more), rest)) := by
  obtain ⟨c, t, rfl, hc⟩ := hs
  obtain ⟨hsep, hclose, -⟩ := startsValue_iff.mp hc
  rw [value?, skip_cons (by decide)]
  simp only [skip_blank hb hsep]
  split <;> simp_all

theorem value?_members (fuel : Nat) {b : List Char} (hb : Blank b)
    {s : List Char} (hs : StartsValue s) :
    value? (fuel + 1) ('{' :: (b ++ s)) = (do
      let (entry, rest) ← pair? fuel s
      let (more, rest) ← members? fuel rest
      return (.obj (entry :: more), rest)) := by
  obtain ⟨c, t, rfl, hc⟩ := hs
  obtain ⟨hsep, -, hclose⟩ := startsValue_iff.mp hc
  rw [value?, skip_cons (by decide)]
  simp only [skip_blank hb hsep]
  split <;> simp_all

theorem pair?_quote (fuel : Nat) (name : String) (rest : List Char) :
    pair? (fuel + 1) (quote name.toList ++ ':' :: rest) =
      (value? fuel rest).map fun read => ((name, read.1), read.2) := by
  obtain ⟨t, ht, hstring⟩ := string?_quote name (':' :: rest)
  rw [ht, pair?, skip_cons (by decide)]
  simp only [hstring, Option.bind_eq_bind, Option.bind_some,
    skip_cons (c := ':') (by decide)]
  cases value? fuel rest <;> rfl

/-! ## The reader on written text -/

theorem EndsNumber.of_blank {b : List Char} (hb : Blank b) {c : Char}
    (hc : continuesNumber c = false) (s : List Char) :
    EndsNumber (b ++ c :: s) := by
  cases b with
  | nil => exact .cons s hc
  | cons d b =>
      refine .cons _ ?_
      have hd := hb d List.mem_cons_self
      simp only [isSeparator, Bool.or_eq_true, beq_iff_eq] at hd
      rcases hd with ((rfl | rfl) | rfl) | rfl <;> decide

theorem WrittenItems.ends {items : List Json} {t : List Char}
    (h : WrittenItems items t) (rest : List Char) : EndsNumber (t ++ rest) := by
  cases h with
  | done hb =>
      rw [List.append_assoc, List.singleton_append]
      exact .of_blank hb (by decide) rest
  | item => exact .cons _ (by decide)

theorem WrittenMembers.ends {members : List (String × Json)} {t : List Char}
    (h : WrittenMembers members t) (rest : List Char) :
    EndsNumber (t ++ rest) := by
  cases h with
  | done hb =>
      rw [List.append_assoc, List.singleton_append]
      exact .of_blank hb (by decide) rest
  | member => exact .cons _ (by decide)

theorem pair?_written {fuel : Nat} {b c : List Char} (hb : Blank b)
    (hc : Blank c) (name : String) {v : Json} {s rest : List Char}
    (hs : StartsValue s) (hread : value? fuel (s ++ rest) = some (v, rest)) :
    pair? (fuel + 1) (b ++ (quote name.toList ++ ':' :: (c ++ (s ++ rest)))) =
      some ((name, v), rest) := by
  rw [pair?_blank _ hb ((StartsValue.quote _).append _), pair?_quote,
    value?_blank fuel hc (hs.append rest), hread, Option.map_some]

theorem length_quote_pos (s : List Char) : 0 < (quote s).length :=
  Nat.zero_lt_succ _

mutual

theorem Written.read {v : Json} {s : List Char} (h : Written v s) (fuel : Nat)
    (hfuel : s.length ≤ fuel) {rest : List Char} (hrest : EndsNumber rest) :
    value? fuel (s ++ rest) = some (v, rest) := by
  obtain ⟨fuel, rfl⟩ : ∃ more, fuel = more + 1 := by
    obtain ⟨c, t, rfl, -⟩ := h.starts
    exact Nat.exists_eq_add_one.mpr
      (Nat.lt_of_lt_of_le (Nat.zero_lt_succ _) hfuel)
  cases h with
  | null => rw [value?]; rfl
  | true => rw [value?]; rfl
  | false => rw [value?]; rfl
  | number h =>
      obtain ⟨c, t, rfl, hc⟩ := h.head
      rw [List.cons_append, value?_digit fuel hc]
      exact h.reads hrest
  | minus h =>
      rw [List.cons_append, value?, skip_cons (by decide)]
      exact h.reads hrest
  | str s =>
      obtain ⟨t, ht, hstring⟩ := string?_quote s rest
      rw [ht, value?, skip_cons (by decide)]
      simp only [hstring, Option.map_some]
  | noItems => rw [value?]; rfl
  | @items item _ b s t hb hitem hitems =>
      simp only [List.length_cons, List.length_append] at hfuel
      have hfirst := hitem.read fuel (by omega) (hitems.ends rest)
      have hmore := hitems.read fuel (by omega) rest
      rw [List.cons_append, List.append_assoc, List.append_assoc,
        value?_items fuel hb (hitem.starts.append _), hfirst]
      simp only [Option.bind_eq_bind, Option.bind_some, hmore]
      rfl
  | noMembers => rw [value?]; rfl
  | @members name value _ b c s t hb hc hvalue hmembers =>
      have hquote := length_quote_pos name.toList
      simp only [List.length_cons, List.length_append] at hfuel
      obtain ⟨fuel, rfl⟩ : ∃ more, fuel = more + 1 :=
        Nat.exists_eq_add_one.mpr (by omega)
      have hfirst := pair?_written .nil hc name hvalue.starts
        (hvalue.read fuel (by omega) (hmembers.ends rest))
      have hmore := hmembers.read (fuel + 1) (by omega) rest
      simp only [List.cons_append, List.append_assoc]
      rw [value?_members _ hb ((StartsValue.quote _).append _)]
      simp only [List.nil_append] at hfirst
      simp only [hfirst, Option.bind_eq_bind, Option.bind_some, hmore]
      rfl

theorem WrittenItems.read {items : List Json} {t : List Char}
    (h : WrittenItems items t) (fuel : Nat) (hfuel : t.length ≤ fuel)
    (rest : List Char) :
    items? fuel (t ++ rest) = some (items, rest) := by
  cases h with
  | @done b hb =>
      simp only [List.length_append, List.length_singleton] at hfuel
      obtain ⟨fuel, rfl⟩ : ∃ more, fuel = more + 1 :=
        Nat.exists_eq_add_one.mpr (by omega)
      rw [items?, List.append_assoc, List.singleton_append,
        skip_blank hb (by decide)]
      rfl
  | @item item _ b s t hb hitem hitems =>
      simp only [List.length_cons, List.length_append] at hfuel
      obtain ⟨fuel, rfl⟩ : ∃ more, fuel = more + 1 :=
        Nat.exists_eq_add_one.mpr (by omega)
      have hfirst := hitem.read fuel (by omega) (hitems.ends rest)
      have hmore := hitems.read fuel (by omega) rest
      rw [List.cons_append, List.append_assoc, List.append_assoc,
        items?, skip_cons (by decide)]
      simp only [value?_blank fuel hb (hitem.starts.append _), hfirst,
        Option.bind_eq_bind, Option.bind_some, hmore]
      rfl

theorem WrittenMembers.read {members : List (String × Json)} {t : List Char}
    (h : WrittenMembers members t) (fuel : Nat) (hfuel : t.length ≤ fuel)
    (rest : List Char) :
    members? fuel (t ++ rest) = some (members, rest) := by
  cases h with
  | @done b hb =>
      simp only [List.length_append, List.length_singleton] at hfuel
      obtain ⟨fuel, rfl⟩ : ∃ more, fuel = more + 1 :=
        Nat.exists_eq_add_one.mpr (by omega)
      rw [members?, List.append_assoc, List.singleton_append,
        skip_blank hb (by decide)]
      rfl
  | @member name value _ b c s t hb hc hvalue hmembers =>
      have hquote := length_quote_pos name.toList
      simp only [List.length_cons, List.length_append] at hfuel
      obtain ⟨fuel, rfl⟩ : ∃ more, fuel = more + 2 := ⟨fuel - 2, by omega⟩
      have hfirst := pair?_written hb hc name hvalue.starts
        (hvalue.read fuel (by omega) (hmembers.ends rest))
      have hmore := hmembers.read (fuel + 1) (by omega) rest
      simp only [List.cons_append, List.append_assoc]
      rw [members?, skip_cons (by decide)]
      simp only [hfirst, Option.bind_eq_bind, Option.bind_some, hmore]
      rfl

end

theorem Written.read? {v : Json} {s : List Char} (h : Written v s) :
    read? s = some v := by
  have hread := h.read (2 * s.length + 1) (by omega) .nil
  rw [List.append_nil] at hread
  simp [Json.read?, hread, skip]

end Workflows.Json
