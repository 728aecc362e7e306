import Mathlib.Algebra.GroupWithZero.Nat
import Mathlib.Tactic.MkIffOfInductiveProp
import Workflows.Number.Binary64

/-!
# Whole floating-point numbers

A natural number below `2 ^ 53` is a floating-point number exactly, and a ratio
that equals one is not changed by rounding.  `whole` is its form; the numbers
that a drawing uses for its places are all of this form.
-/

namespace Workflows.Binary64

def whole (negative : Bool) (n : Nat) : Binary64 :=
  if n = 0 then zero negative
  else ⟨negative, n * 2 ^ (52 - Nat.log2 n), (Nat.log2 n : Int) - 52⟩

/-- A significand and an exponent that the format has. -/
@[mk_iff]
structure Regular (x : Binary64) : Prop where
  significand_lt : x.significand < 2 ^ 53
  normal : 2 ^ 52 ≤ x.significand ∨ x.exponent = -1074
  least : -1074 ≤ x.exponent
  greatest : x.exponent ≤ 971

@[mk_iff]
structure WholeBelow (bound : Nat) (x : Binary64) : Prop where
  integral : x.denominator ∣ x.numerator
  small : x.numerator < bound * x.denominator

instance (x : Binary64) : Decidable (Regular x) :=
  decidable_of_iff' _ (regular_iff x)

instance (bound : Nat) (x : Binary64) : Decidable (WholeBelow bound x) :=
  decidable_of_iff' _ (wholeBelow_iff bound x)

/-! ## Parts of a whole number -/

theorem log2_le_52 {n : Nat} (hn : n < 2 ^ 53) : Nat.log2 n ≤ 52 := by
  by_cases h : n = 0
  · simp [h]
  · exact Nat.lt_succ_iff.mp ((Nat.log2_lt h).mpr hn)

@[simp] theorem whole_negative (negative : Bool) (n : Nat) :
    (whole negative n).negative = negative := by
  unfold whole
  split <;> rfl

theorem whole_with_negative (negative other : Bool) (n : Nat) :
    { whole negative n with negative := other } = whole other n := by
  unfold whole
  split <;> rfl

@[simp] theorem whole_isZero (negative : Bool) (n : Nat) :
    (whole negative n).isZero = decide (n = 0) := by
  by_cases h : n = 0 <;> simp [whole, isZero, zero, h]

theorem denominator_pos (x : Binary64) : 0 < x.denominator := Nat.two_pow_pos _

theorem denominator_ne_zero (x : Binary64) : x.denominator ≠ 0 :=
  Nat.pos_iff_ne_zero.mp x.denominator_pos

theorem whole_numerator (negative : Bool) {n : Nat} (hn : n < 2 ^ 53) :
    (whole negative n).numerator = n * (whole negative n).denominator := by
  have hlog := log2_le_52 hn
  by_cases h : n = 0
  · simp [whole, zero, numerator, h]
  · have hexp : ((Nat.log2 n : Int) - 52).toNat = 0 := by omega
    have hden : (-((Nat.log2 n : Int) - 52)).toNat = 52 - Nat.log2 n := by omega
    simp only [whole, numerator, denominator, h, ↓reduceIte, hexp,
      hden, Nat.pow_eq, Nat.pow_zero, Nat.mul_one]

theorem two_pow_eq_mul {k log : Nat} (h : log ≤ k) :
    2 ^ k = 2 ^ log * 2 ^ (k - log) := by
  rw [← Nat.pow_add, Nat.add_sub_cancel' h]

theorem shifted_bounds {n : Nat} (h : n ≠ 0) (hn : n < 2 ^ 53) :
    2 ^ 52 ≤ n * 2 ^ (52 - Nat.log2 n) ∧
    n * 2 ^ (52 - Nat.log2 n) < 2 ^ 53 := by
  have hlog := log2_le_52 hn
  have hshift : 53 - (Nat.log2 n + 1) = 52 - Nat.log2 n := by omega
  constructor
  · rw [two_pow_eq_mul hlog]
    exact Nat.mul_le_mul_right _ (Nat.log2_self_le h)
  · rw [two_pow_eq_mul (Nat.succ_le_succ hlog), Nat.succ_eq_add_one, hshift]
    exact Nat.mul_lt_mul_of_pos_right Nat.lt_log2_self (Nat.two_pow_pos _)

theorem whole_regular (negative : Bool) {n : Nat} (hn : n < 2 ^ 53) :
    Regular (whole negative n) := by
  have hlog := log2_le_52 hn
  by_cases h : n = 0
  · rw [whole, if_pos h]
    cases negative <;> decide
  · obtain ⟨lower, upper⟩ := shifted_bounds h hn
    rw [whole, if_neg h]
    exact ⟨upper, .inl lower, by simp only; omega, by simp only; omega⟩

theorem whole_wholeBelow (negative : Bool) {n bound : Nat} (hn : n < 2 ^ 53)
    (h : n < bound) :
    WholeBelow bound (whole negative n) where
  integral := ⟨n, by rw [whole_numerator negative hn, Nat.mul_comm]⟩
  small := by
    rw [whole_numerator negative hn]
    exact Nat.mul_lt_mul_of_pos_right h (denominator_pos _)

theorem whole_inj {negative other : Bool} {m n : Nat} (hm : m < 2 ^ 53)
    (hn : n < 2 ^ 53) (h : whole negative m = whole other n) : m = n := by
  have hnum := whole_numerator negative hm
  rw [h, whole_numerator other hn] at hnum
  exact (Nat.eq_of_mul_eq_mul_right (denominator_pos _) hnum).symm

/-! ## Rounding -/

theorem scaled_of_nonneg (num den : Nat) (k : Nat) :
    scaled num den (k : Int) = (num, den * 2 ^ k) := by
  have hneg : ¬ (k : Int) < 0 := by omega
  simp only [scaled, hneg, ↓reduceIte, Int.toNat_natCast, Nat.pow_eq]

theorem scaled_of_nonpos (num den k : Nat) :
    scaled num den (-(k : Int)) = (num * 2 ^ k, den) := by
  cases k with
  | zero => simp [scaled, Nat.pow_eq]
  | succ k =>
      have hneg : -((k + 1 : Nat) : Int) < 0 := by omega
      have hexp : (- -((k + 1 : Nat) : Int)).toNat = k + 1 := by omega
      simp only [scaled, hneg, hexp, ↓reduceIte, Nat.pow_eq]

theorem log2_mul {n den : Nat} (hn : n ≠ 0) (hden : den ≠ 0) :
    Nat.log2 (n * den) = Nat.log2 n + Nat.log2 den ∨
      Nat.log2 (n * den) = Nat.log2 n + Nat.log2 den + 1 := by
  have hmul : n * den ≠ 0 := Nat.mul_ne_zero hn hden
  have lower : 2 ^ (Nat.log2 n + Nat.log2 den) ≤ n * den := by
    rw [Nat.pow_add]
    exact Nat.mul_le_mul (Nat.log2_self_le hn) (Nat.log2_self_le hden)
  have upper : n * den < 2 ^ (Nat.log2 n + Nat.log2 den + 2) := by
    have hpow : 2 ^ (Nat.log2 n + Nat.log2 den + 2) =
        2 ^ (Nat.log2 n + 1) * 2 ^ (Nat.log2 den + 1) := by
      rw [← Nat.pow_add]
      congr 1
      omega
    rw [hpow]
    exact Nat.mul_lt_mul'' Nat.lt_log2_self Nat.lt_log2_self
  have hle := (Nat.le_log2 hmul).mpr lower
  have hlt := (Nat.log2_lt hmul).mpr upper
  omega

theorem binade_mul {n den : Nat} (hn : n ≠ 0) (hden : den ≠ 0) :
    binade (n * den) den = Nat.log2 n := by
  have hpos : 0 < den := Nat.pos_of_ne_zero hden
  have hmul : ∀ k, den * 2 ^ k ≤ n * den ↔ 2 ^ k ≤ n := fun k => by
    rw [Nat.mul_comm n den]
    exact Nat.mul_le_mul_left_iff hpos
  -- the first guess is right or one too great, and the comparison tells which
  rcases log2_mul hn hden with h | h
  · have hguess : (Nat.log2 (n * den) : Int) - Nat.log2 den =
        (Nat.log2 n : Nat) := by omega
    simp only [binade, hguess, scaled_of_nonneg, hmul, Nat.log2_self_le hn,
      ↓reduceIte]
  · have hguess : (Nat.log2 (n * den) : Int) - Nat.log2 den =
        (Nat.log2 n + 1 : Nat) := by omega
    have hlt : ¬ 2 ^ (Nat.log2 n + 1) ≤ n := Nat.not_le.mpr Nat.lt_log2_self
    simp only [binade, hguess, scaled_of_nonneg, hmul, hlt, ↓reduceIte]
    omega

theorem halfEven_mul (q : Nat) {den : Nat} (hden : 0 < den) :
    halfEven (q * den) den = q := by
  simp [halfEven, Nat.mul_div_cancel _ hden, hden]

theorem ofRatio?_mul (negative : Bool) {n den : Nat} (hn : n < 2 ^ 53)
    (hden : den ≠ 0) :
    ofRatio? negative (n * den) den = some (whole negative n) := by
  by_cases h : n = 0
  · simp [ofRatio?, whole, h]
  have hlog := log2_le_52 hn
  have hpos : 0 < den := Nat.pos_of_ne_zero hden
  have hexp : max (binade (n * den) den - 52) (-1074) =
      -((52 - Nat.log2 n : Nat) : Int) := by
    rw [binade_mul h hden]
    omega
  have hquot : halfEven (n * den * 2 ^ (52 - Nat.log2 n)) den =
      n * 2 ^ (52 - Nat.log2 n) := by
    rw [Nat.mul_right_comm]
    exact halfEven_mul _ hpos
  have hne : n * 2 ^ (52 - Nat.log2 n) ≠ Nat.pow 2 53 :=
    Nat.ne_of_lt (shifted_bounds h hn).2
  have hgreatest : ¬ (971 : Int) < -((52 - Nat.log2 n : Nat) : Int) := by omega
  have hwhole : whole negative n =
      ⟨negative, n * 2 ^ (52 - Nat.log2 n),
        -((52 - Nat.log2 n : Nat) : Int)⟩ := by
    rw [whole, if_neg h]
    congr 1
    omega
  rw [hwhole, ofRatio?, if_neg (Nat.mul_ne_zero h hden)]
  simp only [hexp, scaled_of_nonpos, hquot, hne, hgreatest, ↓reduceIte]

theorem ofNat_eq_whole {n : Nat} (hn : n < 2 ^ 53) :
    ofNat n = whole false n := by
  have h := ofRatio?_mul false hn Nat.one_ne_zero
  rw [Nat.mul_one] at h
  rw [ofNat, h, Option.getD_some]

theorem whole_div? (negative : Bool) {q n : Nat} (hn : n ≠ 0)
    (hn53 : n < 2 ^ 53) (hqn : q * n < 2 ^ 53) :
    (whole negative (q * n)).div? (whole false n) = some
      (whole negative q) := by
  have hq : q < 2 ^ 53 :=
    Nat.lt_of_le_of_lt (Nat.le_mul_of_pos_right q (by omega)) hqn
  have hratio :
      (whole negative (q * n)).numerator * (whole false n).denominator =
      q * ((whole negative (q * n)).denominator *
        (whole false n).numerator) := by
    rw [whole_numerator negative hqn, whole_numerator false hn53]
    ac_rfl
  have hden : (whole negative (q * n)).denominator * (whole false n).numerator ≠
      0 := by
    rw [whole_numerator false hn53]
    exact Nat.mul_ne_zero (denominator_ne_zero _)
      (Nat.mul_ne_zero hn (denominator_ne_zero _))
  rw [div?, hratio, whole_negative, whole_negative, Bool.bne_false]
  exact ofRatio?_mul negative hq hden

/-! ## Which numbers are whole -/

/-- The significand of a regular number other than zero that is an integer has
all 53 digits: with the least exponent the value would be below one. -/
theorem log2_add_eq {negative : Bool} {n k : Nat} (hn : n ≠ 0)
    (hx : Regular ⟨negative, n * 2 ^ k, -(k : Int)⟩) : Nat.log2 n + k = 52 := by
  have upper : n * 2 ^ k < 2 ^ 53 := hx.significand_lt
  have pow_le : 2 ^ k ≤ n * 2 ^ k :=
    Nat.le_mul_of_pos_left _ (Nat.pos_of_ne_zero hn)
  have k_lt : k < 53 :=
    (Nat.pow_lt_pow_iff_right (by decide)).mp (Nat.lt_of_le_of_lt pow_le upper)
  have lower : 2 ^ 52 ≤ n * 2 ^ k := by
    rcases hx.normal with h | h
    · exact h
    · simp only at h
      omega
  have below : 2 ^ (Nat.log2 n + k) < 2 ^ 53 := by
    refine Nat.lt_of_le_of_lt ?_ upper
    rw [Nat.pow_add]
    exact Nat.mul_le_mul_right _ (Nat.log2_self_le hn)
  have above : 2 ^ 52 < 2 ^ (Nat.log2 n + 1 + k) := by
    refine Nat.lt_of_le_of_lt lower ?_
    rw [Nat.pow_add]
    exact Nat.mul_lt_mul_of_pos_right Nat.lt_log2_self (Nat.two_pow_pos _)
  have := (Nat.pow_lt_pow_iff_right (by decide)).mp below
  have := (Nat.pow_lt_pow_iff_right (by decide)).mp above
  omega

theorem eq_whole {x : Binary64} {n : Nat} (hx : Regular x)
    (hn : x.numerator = n * x.denominator) (hlt : n < 2 ^ 52) :
    x = whole x.negative n := by
  obtain ⟨negative, significand, exponent⟩ := x
  -- the significand of an integer with a nonnegative exponent is at most that
  -- integer
  have nonneg : 0 ≤ exponent → significand = 0 := fun hge => by
    have hexp : (-exponent).toNat = 0 := by omega
    simp only [numerator, denominator, hexp, Nat.pow_eq, Nat.pow_zero,
      Nat.mul_one] at hn
    have : significand ≤ n := hn ▸ Nat.le_mul_of_pos_right _ (Nat.two_pow_pos _)
    rcases hx.normal with h | h <;> simp only at h <;> omega
  rcases Nat.eq_zero_or_pos significand with rfl | hpos
  · have hexp : exponent = -1074 := by
      rcases hx.normal with h | h
      · simp at h
      · exact h
    have hn0 : n = 0 := by
      simp only [numerator, Nat.zero_mul] at hn
      exact (Nat.mul_eq_zero.mp hn.symm).resolve_right (denominator_ne_zero _)
    simp [whole, zero, hn0, hexp]
  · obtain ⟨k, rfl⟩ : ∃ k : Nat, exponent = -(k : Int) :=
      ⟨(-exponent).toNat, by omega⟩
    have hsig : significand = n * 2 ^ k := by
      have hexp : (-(k : Int)).toNat = 0 := by omega
      have hden : (- -(k : Int)).toNat = k := by omega
      simpa only [numerator, denominator, hexp, hden, Nat.pow_eq, Nat.pow_zero,
        Nat.mul_one] using hn
    subst hsig
    have hn0 : n ≠ 0 := by
      rintro rfl
      simp at hpos
    have hlog := log2_add_eq hn0 hx
    have hk : 52 - Nat.log2 n = k := by omega
    have hexp : (Nat.log2 n : Int) - 52 = -(k : Int) := by omega
    rw [whole, if_neg hn0, hk, hexp]

theorem WholeBelow.eq_whole {bound : Nat} {x : Binary64}
    (hw : WholeBelow bound x) (hx : Regular x) (hbound : bound ≤ 2 ^ 52) :
    ∃ n < bound, x = whole x.negative n := by
  obtain ⟨n, hn⟩ := hw.integral
  rw [Nat.mul_comm] at hn
  have hlt : n < bound := by
    have h := hw.small
    rw [hn] at h
    exact Nat.lt_of_mul_lt_mul_right h
  exact ⟨n, hlt, Binary64.eq_whole hx hn (Nat.lt_of_lt_of_le hlt hbound)⟩

end Workflows.Binary64
