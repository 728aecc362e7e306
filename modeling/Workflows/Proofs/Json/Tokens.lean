import Mathlib.Data.List.TakeDrop
import Workflows.Json.Printer
import Workflows.Json.Reader
import Workflows.Proofs.Number.Decimal

/-!
# Numbers and strings in JSON text

Reading a number stops at the first character that cannot continue it, so it is
stated for every text behind the number that starts with no such character.
Integers of 64 binary digits and whole floating-point numbers below `2 ^ 40` are
read as they were written, and so is every string.
-/

namespace Workflows.Json

def continuesNumber (c : Char) : Bool :=
  c.isDigit || c == '.' || c == 'e' || c == 'E'

/-- The text `s` stands behind a number and does not continue it. -/
def EndsNumber (s : List Char) : Prop :=
  ∀ c ∈ s.head?, continuesNumber c = false

/-- The text `s` behind a sign is a number with the value `v`. -/
structure NumberText (negative : Bool) (s : List Char) (v : Json) : Prop where
  head : ∃ c t, s = c :: t ∧ c.isDigit = true
  reads : ∀ {rest}, EndsNumber rest → number? negative (s ++ rest) =
    some (v, rest)

theorem EndsNumber.nil : EndsNumber [] := by simp [EndsNumber]

theorem EndsNumber.cons {c : Char} (s : List Char)
    (h : continuesNumber c = false) :
    EndsNumber (c :: s) := by
  simpa [EndsNumber] using h

/-! ## Digits -/

theorem span_digits {ds rest : List Char} (hds : ∀ c ∈ ds, c.isDigit = true)
    (hrest : ∀ c ∈ rest.head?, c.isDigit = false) :
    (ds ++ rest).span Char.isDigit = (ds, rest) := by
  rw [List.span_eq_takeWhile_dropWhile, List.takeWhile_append_of_pos hds,
    List.dropWhile_append_of_pos hds]
  cases rest with
  | nil => simp
  | cons c t =>
      have hc := hrest c rfl
      simp [hc]

theorem toDigits_isDigit {n : Nat} :
    ∀ c ∈ Nat.toDigits 10 n, c.isDigit = true :=
  fun _ hc => Nat.isDigit_of_mem_toDigits (by decide) (by decide) hc

theorem toDigits_eq_cons (n : Nat) :
    ∃ c t, Nat.toDigits 10 n = c :: t ∧ (c = '0' → n = 0) := by
  induction n using Nat.base_induction 10 (by decide) with
  | single m hm =>
      exact ⟨m.digitChar, [], Nat.toDigits_of_lt_base hm,
        Nat.digitChar_eq_zero.mp⟩
  | digit m k hk hm ih =>
      obtain ⟨c, t, hct, hzero⟩ := ih
      refine ⟨c, t ++ Nat.toDigits 10 k, ?_,
        fun hc => absurd (hzero hc) (by omega)⟩
      rw [← Nat.toDigits_append_toDigits (by decide) hm hk, hct,
        List.cons_append]

theorem toDigits_ne_zero_cons {n : Nat} (c : Char) (t : List Char) :
    Nat.toDigits 10 n ≠ '0' :: c :: t := by
  intro h
  obtain ⟨d, s, hds, hzero⟩ := toDigits_eq_cons n
  rw [hds] at h
  have hn := hzero (List.cons.inj h).1
  rw [hn, Nat.toDigits_zero] at hds
  rw [← hds] at h
  simp at h

theorem absorb_eq {ds : List Char} {value : Nat}
    (h : Nat.ofDigitChars 10 ds value < 2 ^ 64) :
    absorb value ds = (Nat.ofDigitChars 10 ds value, []) := by
  induction ds generalizing value with
  | nil => rfl
  | cons c ds ih =>
      rw [Nat.ofDigitChars_cons] at h ⊢
      have hle : 10 * value + (c.toNat - '0'.toNat) ≤
          Nat.ofDigitChars 10 ds (10 * value + (c.toNat - '0'.toNat)) := by
        rw [Nat.ofDigitChars_eq_ofDigitChars_zero]
        have : 0 < 10 ^ ds.length := Nat.pow_pos (by decide)
        exact Nat.le_trans (Nat.le_mul_of_pos_left _ this)
          (Nat.le_add_right _ _)
      have hlt : 10 * value + digitValue c < Nat.pow 2 64 :=
        Nat.lt_of_le_of_lt hle h
      simp only [absorb, hlt, ↓reduceIte]
      exact ih h

/-! ## Numbers -/

theorem EndsNumber.not_isDigit {s : List Char} (h : EndsNumber s) :
    ∀ c ∈ s.head?, c.isDigit = false := by
  intro c hc
  have := h c hc
  simp only [continuesNumber, Bool.or_eq_false_iff] at this
  exact this.1.1.1

structure IsWhole (whole : List Char) : Prop where
  digits : ∀ c ∈ whole, c.isDigit = true
  head : ∃ c rest, whole = c :: rest ∧ (c = '0' → rest = [])

theorem isWhole_toDigits (n : Nat) : IsWhole (Nat.toDigits 10 n) := by
  obtain ⟨c, t, hct, -⟩ := toDigits_eq_cons n
  refine ⟨toDigits_isDigit, c, t, hct, ?_⟩
  rintro rfl
  cases t with
  | nil => rfl
  | cons d t => exact absurd hct (toDigits_ne_zero_cons d t)

theorem isWhole_zero : IsWhole ['0'] := isWhole_toDigits 0

structure IsFraction (fraction : List Char) : Prop where
  digits : ∀ c ∈ fraction, c.isDigit = true
  ne_nil : fraction ≠ []

def numberBehind? (negative : Bool) (whole rest : List Char) :
    Option (Json × List Char) :=
  match rest with
  | '.' :: rest =>
      match rest.span Char.isDigit with
      | ([], _) => none
      | (fraction, rest) =>
          match rest with
          | 'e' :: rest | 'E' :: rest => do
              let (e, rest) ← exponent? rest
              return (← real? negative whole fraction e, rest)
          | rest => (real? negative whole fraction 0).map (·, rest)
  | 'e' :: rest | 'E' :: rest => do
      let (e, rest) ← exponent? rest
      return (← real? negative whole [] e, rest)
  | rest => (whole? negative whole).map (·, rest)

section

variable (negative : Bool) {whole fraction rest : List Char}

theorem number?_append (hwhole : IsWhole whole)
    (hrest : ∀ c ∈ rest.head?, c.isDigit = false) :
    number? negative (whole ++ rest) = numberBehind? negative whole rest := by
  obtain ⟨d, more, rfl, hzero⟩ := hwhole.head
  rw [number?, span_digits hwhole.digits hrest]
  split
  case h_1 h => cases h
  case h_2 h =>
      obtain ⟨hcons, -⟩ := Prod.mk.inj h
      obtain ⟨rfl, rfl⟩ := List.cons.inj hcons
      cases hzero rfl
  case h_3 h =>
      obtain ⟨rfl, rfl⟩ := Prod.mk.inj h
      rfl

theorem number?_whole (hwhole : IsWhole whole) (hrest : EndsNumber rest) :
    number? negative (whole ++ rest) =
      (whole? negative whole).map (·, rest) := by
  rw [number?_append negative hwhole hrest.not_isDigit]
  unfold numberBehind?
  split <;> simp_all [EndsNumber, continuesNumber]

theorem number?_fraction (hwhole : IsWhole whole)
    (hfraction : IsFraction fraction) (hrest : EndsNumber rest) :
    number? negative (whole ++ '.' :: (fraction ++ rest)) =
      (real? negative whole fraction 0).map (·, rest) := by
  obtain ⟨c, t, rfl⟩ := List.exists_cons_of_ne_nil hfraction.ne_nil
  rw [number?_append negative hwhole (by simp)]
  simp only [numberBehind?, span_digits hfraction.digits hrest.not_isDigit]
  split <;> simp_all [EndsNumber, continuesNumber]

theorem exponent?_signed (e : Int) (hrest : EndsNumber rest) :
    exponent? ((if e < 0 then '-' else '+') ::
      (Nat.toDigits 10 e.natAbs ++ rest)) =
      some (e, rest) := by
  have hspan := span_digits (toDigits_isDigit (n := e.natAbs)) hrest.not_isDigit
  obtain ⟨c, t, hct, -⟩ := toDigits_eq_cons e.natAbs
  have hvalue : Nat.ofDigitChars 10 (c :: t) 0 = e.natAbs := by
    rw [← hct, Nat.ofDigitChars_ten_toDigits]
  rw [hct] at hspan ⊢
  split
  · simp only [exponent?, hspan, hvalue, ↓reduceIte]
    congr 2
    omega
  · simp only [exponent?, hspan, hvalue, Bool.false_eq_true, ↓reduceIte]
    congr 2
    omega

theorem number?_exponent (hwhole : IsWhole whole) (e : Int)
    (hrest : EndsNumber rest) :
    number? negative (whole ++ 'e' :: (if e < 0 then '-' else '+') ::
        (Nat.toDigits 10 e.natAbs ++ rest)) = (real? negative whole [] e).map
          (·, rest) := by
  rw [number?_append negative hwhole (by simp)]
  simp only [numberBehind?, exponent?_signed e hrest, Option.bind_eq_bind,
    Option.bind_some]
  cases real? negative whole [] e <;> rfl

theorem number?_fraction_exponent (hwhole : IsWhole whole)
    (hfraction : IsFraction fraction) (e : Int) (hrest : EndsNumber rest) :
    number? negative (whole ++ '.' ::
      (fraction ++ 'e' :: (if e < 0 then '-' else '+') ::
        (Nat.toDigits 10 e.natAbs ++ rest))) =
          (real? negative whole fraction e).map (·, rest) := by
  obtain ⟨c, t, rfl⟩ := List.exists_cons_of_ne_nil hfraction.ne_nil
  rw [number?_append negative hwhole (by simp)]
  have hexponent := exponent?_signed e hrest
  generalize (if e < 0 then '-' else '+') ::
    (Nat.toDigits 10 e.natAbs ++ rest) = text at hexponent ⊢
  have hspan : (c :: t ++ 'e' :: text).span Char.isDigit =
      (c :: t, 'e' :: text) :=
    span_digits hfraction.digits (by simp)
  simp only [numberBehind?, hspan, hexponent, Option.bind_eq_bind,
    Option.bind_some]
  cases real? negative whole (c :: t) e <;> rfl

end

/-! ## Values of numbers -/

theorem whole?_toDigits {n : Nat} (hn : n < 2 ^ 64) :
    whole? false (Nat.toDigits 10 n) = some (.int n) := by
  rw [whole?, absorb_eq (by rw [Nat.ofDigitChars_ten_toDigits]; exact hn)]
  simp

theorem whole?_neg_toDigits {n : Nat} (hpos : 0 < n) (hn : n ≤ 2 ^ 63) :
    whole? true (Nat.toDigits 10 n) = some (.int (-n)) := by
  have hrange : ¬ (n = 0 ∨ Nat.pow 2 63 < n) := by
    rw [Nat.pow_eq]
    omega
  rw [whole?, absorb_eq (by rw [Nat.ofDigitChars_ten_toDigits]; omega)]
  simp [hrange]

theorem signed_whole (negative : Bool) (n : Nat) :
    signed negative (.whole false n) = .whole negative n := by
  cases negative with
  | false => rfl
  | true =>
      rw [signed, if_pos rfl, Binary64.neg, Binary64.whole_with_negative,
        Binary64.whole_negative]
      rfl

theorem scale?_mul_ten {n : Nat} (hn : n < 2 ^ 40) :
    scale? (10 * n) (-1) = some (.whole false n) := by
  have hten : powerOfTen 1 = .whole false 10 := by
    rw [powerOfTen, Binary64.ofDecimal?_whole false (by decide)]
    rfl
  have hvalue : Binary64.ofNat (10 * n) = .whole false (n * 10) := by
    rw [Nat.mul_comm]
    exact Binary64.ofNat_eq_whole (by omega)
  rw [scale?, if_pos (by decide), scaleDown, if_pos (by decide), hvalue,
    Int.natAbs_neg, Int.natAbs_one, hten]
  exact Binary64.whole_div? false (by decide) (by decide) (by omega)

theorem real?_toDigits (negative : Bool) {n : Nat} (hn : n < 2 ^ 40) :
    real? negative (Nat.toDigits 10 n) ['0'] 0 =
      some (.real (.whole negative n)) := by
  have hwhole : absorb 0 (Nat.toDigits 10 n) = (n, []) := by
    rw [absorb_eq (by rw [Nat.ofDigitChars_ten_toDigits]; omega),
      Nat.ofDigitChars_ten_toDigits]
  have hfraction : absorb n ['0'] = (10 * n, []) := by
    have hlt : 10 * n + digitValue '0' < Nat.pow 2 64 := by
      rw [Nat.pow_eq]
      change 10 * n + 0 < 2 ^ 64
      omega
    simp only [absorb, hlt, ↓reduceIte]
    rfl
  simp [real?, hwhole, hfraction, scale?_mul_ten hn, signed_whole]

/-! ## Texts of numbers -/

theorem toDigits_head (n : Nat) (s : List Char) :
    ∃ c t, Nat.toDigits 10 n ++ s = c :: t ∧ c.isDigit = true := by
  obtain ⟨c, t, hct, -⟩ := toDigits_eq_cons n
  exact ⟨c, t ++ s, by rw [hct, List.cons_append],
    toDigits_isDigit c (hct ▸ List.mem_cons_self)⟩

theorem NumberText.ofNat {n : Nat} (hn : n < 2 ^ 64) :
    NumberText false (Nat.toDigits 10 n) (.int n) where
  head := by simpa using toDigits_head n []
  reads hrest := by
    rw [number?_whole false (isWhole_toDigits n) hrest, whole?_toDigits hn,
      Option.map_some]

theorem NumberText.negOfNat {n : Nat} (hpos : 0 < n) (hn : n ≤ 2 ^ 63) :
    NumberText true (Nat.toDigits 10 n) (.int (-n)) where
  head := by simpa using toDigits_head n []
  reads hrest := by
    rw [number?_whole true (isWhole_toDigits n) hrest,
      whole?_neg_toDigits hpos hn, Option.map_some]

theorem NumberText.whole (negative : Bool) {n : Nat} (hn : n < 2 ^ 40) :
    NumberText negative (Nat.toDigits 10 n ++ ['.', '0'])
      (.real (.whole negative n)) where
  head := toDigits_head n _
  reads hrest := by
    have hzero : IsFraction ['0'] := ⟨isWhole_zero.digits, List.cons_ne_nil _ _⟩
    have hread := number?_fraction negative (isWhole_toDigits n) hzero hrest
    rw [List.append_assoc]
    exact hread.trans (by rw [real?_toDigits negative hn, Option.map_some])

/-! ## Strings -/

theorem hexValue?_hexDigit : ∀ n < 16, hexValue? (hexDigit n) = some n := by
  decide

theorem hexUnit?_hexDigit {n : Nat} (hn : n < 32) :
    hexUnit? '0' '0' (hexDigit (n / 16)) (hexDigit (n % 16)) = some n := by
  have hzero : hexValue? '0' = some 0 := by decide
  have hvalue : ((0 * 16 + 0) * 16 + n / 16) * 16 + n % 16 = n := by omega
  simp only [hexUnit?, hzero, hexValue?_hexDigit _ (show n / 16 < 16 by omega),
    hexValue?_hexDigit _ (show n % 16 < 16 by omega)]
  exact congrArg some hvalue

inductive Escaped (c : Char) : List Char → Prop
  | short {k : Char} (hk : k ≠ 'u') (h : shortEscape? k = some c) :
      Escaped c ['\\', k]
  | unit {a b : Char} (hc : c.toNat < 32)
      (h : hexUnit? '0' '0' a b = some c.toNat) :
      Escaped c ['\\', 'u', '0', '0', a, b]
  | plain (hquote : c ≠ '\x22') (hslash : c ≠ '\\') (hc : ¬ c.toNat < 32) :
      Escaped c [c]

theorem escapeChar_escaped (c : Char) : Escaped c (escapeChar c) := by
  have short : ∀ {d k : Char}, k ≠ 'u' → shortEscape? k = some d → c = d →
      Escaped c ['\\', k] := fun hk h hc => .short hk (hc ▸ h)
  unfold escapeChar
  split
  case isTrue h => exact short (by decide) rfl h
  split
  case isTrue h => exact short (by decide) rfl h
  split
  case isTrue h => exact short (by decide) rfl h
  split
  case isTrue h => exact short (by decide) rfl h
  split
  case isTrue h => exact short (by decide) rfl h
  split
  case isTrue h =>
    exact short (d := '\x08') (by decide) rfl (Char.toNat_inj.mp h)
  split
  case isTrue h =>
    exact short (d := '\x0c') (by decide) rfl (Char.toNat_inj.mp h)
  split
  case isTrue h => exact .unit h (hexUnit?_hexDigit h)
  case isFalse hquote hslash _ _ _ _ _ h => exact .plain hquote hslash h

theorem characters?_unit {value : Nat} (h : value < 0xD800) (us : List Unit16) :
    characters? (.unit value :: us) =
      (characters? us).map (Char.ofNat value :: ·) := by
  have hhigh : ¬ (0xD800 ≤ value ∧ value < 0xDC00) := by omega
  have hlow : ¬ (0xDC00 ≤ value ∧ value < 0xE000) := by omega
  have hboth : ¬ (0xD800 ≤ value ∧ value < 0xE000) := by omega
  cases us with
  | nil => simp only [characters?, hboth, ↓reduceIte]
  | cons u us =>
      cases u <;> simp only [characters?, hhigh, hlow, hboth, ↓reduceIte]

theorem Escaped.read {c : Char} {text rest more s : List Char}
    {us : List Unit16} (h : Escaped c text)
    (hunits : units? rest = some (us, more))
    (hchars : characters? us = some s) :
    ∃ us, units? (text ++ rest) = some (us, more) ∧
    characters? us = some (c :: s) := by
  cases h with
  | short hk h =>
      refine ⟨.char c :: us, ?_, by simp [characters?, hchars]⟩
      simp [units?, hk, h, hunits]
  | unit hc h =>
      refine ⟨.unit c.toNat :: us, ?_, ?_⟩
      · simp [units?, h, hunits]
      · rw [characters?_unit (by omega), hchars, Option.map_some,
          Char.ofNat_toNat]
  | plain hquote hslash hc =>
      refine ⟨.char c :: us, ?_, by simp [characters?, hchars]⟩
      simp [units?, hslash, hc, hunits]

theorem escaped_read (s rest : List Char) :
    ∃ us, units? (s.flatMap escapeChar ++ '\x22' :: rest) = some (us, rest) ∧
      characters? us = some s := by
  induction s with
  | nil => exact ⟨[], by simp [units?], rfl⟩
  | cons c s ih =>
      obtain ⟨us, hunits, hchars⟩ := ih
      rw [List.flatMap_cons, List.append_assoc]
      exact (escapeChar_escaped c).read hunits hchars

theorem string?_quote (s : String) (rest : List Char) :
    ∃ t, quote s.toList ++ rest = '\x22' :: t ∧ string? t = some (s, rest) := by
  obtain ⟨us, hunits, hchars⟩ := escaped_read s.toList rest
  refine ⟨s.toList.flatMap escapeChar ++ '\x22' :: rest, ?_, ?_⟩
  · rw [quote, List.cons_append, List.append_assoc, List.singleton_append]
  · simp [string?, hunits, hchars]

end Workflows.Json
