import Mathlib.Algebra.Order.Ring.Nat
import Workflows.Proofs.Number.Whole

/-!
# How ratios are rounded

A ratio is rounded to a number of the format unless it is at least half way from
the largest number to the next power of two.  Rounding keeps every bound that is
an integer of at most 53 significant binary digits, and so do products and
quotients, which are rounded ratios.
-/

namespace Workflows.Binary64

/-! ## The binade of a ratio -/

theorem le_binade_iff {num den : Nat} (hnum : num ≠ 0)
    (hden : den ≠ 0) (k : Nat) :
    (k : Int) ≤ binade num den ↔ den * 2 ^ k ≤ num := by
  have hnumLow := Nat.log2_self_le hnum
  have hnumHigh : num < 2 ^ (Nat.log2 num + 1) := Nat.lt_log2_self
  have hdenLow := Nat.log2_self_le hden
  have hdenHigh : den < 2 ^ (Nat.log2 den + 1) := Nat.lt_log2_self
  -- a power of two that is at most the ratio is at most the guess
  have hguess {j : Nat} (h : den * 2 ^ j ≤ num) :
      Nat.log2 den + j ≤ Nat.log2 num := by
    have hlt : 2 ^ (Nat.log2 den + j) < 2 ^ (Nat.log2 num + 1) := by
      rw [Nat.pow_add]
      exact (Nat.mul_le_mul_right _ hdenLow).trans_lt (h.trans_lt hnumHigh)
    have := (Nat.pow_lt_pow_iff_right (by decide)).mp hlt
    omega
  -- and one below the guess is at most the ratio
  have hbelow {j : Nat} (h : Nat.log2 den + j < Nat.log2 num) :
      den * 2 ^ j ≤ num := by
    calc den * 2 ^ j ≤ 2 ^ (Nat.log2 den + 1) * 2 ^ j :=
          Nat.mul_le_mul_right _ (Nat.le_of_lt hdenHigh)
      _ = 2 ^ (Nat.log2 den + 1 + j) := (Nat.pow_add ..).symm
      _ ≤ 2 ^ Nat.log2 num := Nat.pow_le_pow_right (by decide) (by omega)
      _ ≤ num := hnumLow
  rw [binade]
  dsimp only
  by_cases hlog : Nat.log2 den ≤ Nat.log2 num
  · obtain ⟨g, hg⟩ : ∃ g : Nat, Nat.log2 num = Nat.log2 den + g :=
      ⟨_, (Nat.add_sub_cancel' hlog).symm⟩
    have hexp : (Nat.log2 num : Int) - Nat.log2 den = (g : Int) := by omega
    rw [hexp, scaled_of_nonneg]
    split
    · next hle =>
        constructor
        · intro h
          have hkg : k ≤ g := by omega
          exact (Nat.mul_le_mul_left _
            (Nat.pow_le_pow_right (by decide) hkg)).trans hle
        · intro h
          have := hguess h
          omega
    · next hlt =>
        constructor
        · intro h
          exact hbelow (by omega)
        · intro h
          have := hguess h
          have : k ≠ g := by
            rintro rfl
            exact hlt h
          omega
  · constructor
    · intro h
      split at h <;> omega
    · intro h
      have := hguess h
      omega

/-! ## Rounding to an integer -/

section

variable {num den q : Nat}

theorem div_le_halfEven (num den : Nat) : num / den ≤ halfEven num den := by
  unfold halfEven
  dsimp only
  split_ifs <;> omega

theorem halfEven_le_succ (num den : Nat) :
    halfEven num den ≤ num / den + 1 := by
  unfold halfEven
  dsimp only
  split_ifs <;> omega

theorem halfEven_le (h : 2 * num < (2 * q + 1) * den) :
    halfEven num den ≤ q := by
  have hden : 0 < den := Nat.pos_of_ne_zero fun hzero => by simp [hzero] at h
  rw [Nat.add_mul, Nat.mul_assoc, Nat.one_mul] at h
  have hquot : num / den ≤ q := by
    rw [← Nat.lt_succ_iff, Nat.div_lt_iff_lt_mul hden, Nat.succ_mul]
    omega
  rcases hquot.lt_or_eq with hlt | heq
  · exact (halfEven_le_succ num den).trans hlt
  · have hsplit := Nat.mod_add_div' num den
    rw [heq] at hsplit
    have hhalf : 2 * (num % den) < den := by omega
    simp [halfEven, heq, hhalf]

theorem lt_halfEven (hodd : q % 2 = 1) (hden : 0 < den)
    (h : (2 * q + 1) * den ≤ 2 * num) :
    q < halfEven num den := by
  rw [Nat.add_mul, Nat.mul_assoc, Nat.one_mul] at h
  have hquot : q ≤ num / den := by
    rw [Nat.le_div_iff_mul_le hden]
    omega
  rcases hquot.lt_or_eq with hlt | heq
  · exact hlt.trans_le (div_le_halfEven num den)
  · have hsplit := Nat.mod_add_div' num den
    rw [← heq] at hsplit
    have hhalf : ¬ 2 * (num % den) < den := by omega
    simp [halfEven, ← heq, hhalf, hodd]

end

/-! ## Rounding a ratio -/

/-- Ratios from here on are too large for the format: they are at least half way
from the largest number to the next power of two. -/
def overflow : Nat := (2 ^ 54 - 1) * 2 ^ 970

def roundingExponent (num den : Nat) : Int := max (binade num den - 52) (-1074)

def roundedSignificand (num den : Nat) : Nat :=
  halfEven (scaled num den (roundingExponent num den)).1
    (scaled num den (roundingExponent num den)).2

section

variable {negative : Bool} {num den : Nat}

theorem ofRatio?_carry (hnum : num ≠ 0)
    (hcarry : roundedSignificand num den = 2 ^ 53) :
    ofRatio? negative num den =
      if 971 < roundingExponent num den + 1 then none
      else some ⟨negative, 2 ^ 52, roundingExponent num den + 1⟩ := by
  have hq : halfEven (scaled num den (max (binade num den - 52) (-1074))).1
      (scaled num den (max (binade num den - 52) (-1074))).2 = Nat.pow 2 53 :=
    hcarry
  simp only [ofRatio?, hnum, hq, ↓reduceIte]
  rfl

theorem ofRatio?_keep (hnum : num ≠ 0)
    (hkeep : roundedSignificand num den ≠ 2 ^ 53) :
    ofRatio? negative num den =
      if 971 < roundingExponent num den then none
      else some ⟨negative, roundedSignificand num den,
        roundingExponent num den⟩ := by
  have hq : halfEven (scaled num den (max (binade num den - 52) (-1074))).1
      (scaled num den (max (binade num den - 52) (-1074))).2 ≠ Nat.pow 2 53 :=
    hkeep
  simp only [ofRatio?, hnum, hq, ↓reduceIte]
  rfl

theorem roundedSignificand_top {k : Nat} (hk : k = 970) (hnum : num ≠ 0)
    (hden : den ≠ 0) (hbinade : binade num den = (k + 53 : Nat)) :
    roundedSignificand num den = 2 ^ 53 ↔
    (2 ^ 54 - 1) * (den * 2 ^ k) ≤ num := by
  have hexp : roundingExponent num den = (k + 1 : Nat) := by
    rw [roundingExponent]
    omega
  have hscaled : scaled num den ((k + 1 : Nat) : Int) =
      (num, den * 2 ^ k * 2) := by
    rw [scaled_of_nonneg, Nat.pow_succ, Nat.mul_assoc]
  have hbelow : num < den * 2 ^ k * 2 ^ 54 := by
    have h := (le_binade_iff hnum hden (k + 54)).not
    rw [Nat.pow_add, ← Nat.mul_assoc] at h
    omega
  have hpos : 0 < den * 2 ^ k :=
    Nat.mul_pos (Nat.pos_of_ne_zero hden) (Nat.two_pow_pos _)
  rw [roundedSignificand, hexp, hscaled]
  dsimp only
  generalize den * 2 ^ k = unit at hbelow hpos ⊢
  have hle : halfEven num (unit * 2) ≤ 2 ^ 53 := halfEven_le (by omega)
  refine ⟨fun heq => ?_, fun h => le_antisymm hle ?_⟩
  · by_contra hlt
    have hless : halfEven num (unit * 2) ≤ 2 ^ 53 - 1 := halfEven_le (by omega)
    omega
  · have hlt : 2 ^ 53 - 1 < halfEven num (unit * 2) :=
      lt_halfEven (by decide) (by omega) (by omega)
    omega

theorem ofRatio?_eq_none_iff (hden : den ≠ 0) :
    ofRatio? negative num den = none ↔ overflow * den ≤ num := by
  -- the exponent is a variable, so that nothing evaluates the power
  obtain ⟨k, hk⟩ : ∃ k : Nat, k = 970 := ⟨970, rfl⟩
  have hoverflow : overflow * den = (2 ^ 54 - 1) * (den * 2 ^ k) := by
    rw [overflow, ← hk]
    ac_rfl
  have hpos : 0 < den * 2 ^ k :=
    Nat.mul_pos (Nat.pos_of_ne_zero hden) (Nat.two_pow_pos _)
  rw [hoverflow]
  by_cases hnum : num = 0
  · subst hnum
    simp only [ofRatio?, ↓reduceIte, reduceCtorEq, false_iff, Nat.not_le]
    omega
  have h1023 := le_binade_iff hnum hden (k + 53)
  have h1024 := le_binade_iff hnum hden (k + 54)
  have htop := roundedSignificand_top hk hnum hden
  rw [Nat.pow_add, ← Nat.mul_assoc] at h1023 h1024
  generalize den * 2 ^ k = unit at *
  have hexp : roundingExponent num den = max (binade num den - 52) (-1074) :=
    rfl
  by_cases hcarry : roundedSignificand num den = 2 ^ 53
  · rw [ofRatio?_carry hnum hcarry, ite_eq_left_iff]
    simp only [reduceCtorEq, imp_false, not_not]
    rcases lt_trichotomy (binade num den) (k + 53 : Nat) with hlt | heq | hgt
    · omega
    · have := (htop heq).mp hcarry
      omega
    · omega
  · rw [ofRatio?_keep hnum hcarry, ite_eq_left_iff]
    simp only [reduceCtorEq, imp_false, not_not]
    rcases lt_trichotomy (binade num den) (k + 53 : Nat) with hlt | heq | hgt
    · omega
    · have := (htop heq).not.mp hcarry
      omega
    · omega

end

/-! ## Bounds that rounding keeps -/

def AtMost (x : Binary64) (bound : Nat) : Prop :=
  x.numerator ≤ bound * x.denominator

section

variable {negative : Bool} {significand bound k : Nat}

theorem atMost_of_nonneg :
    AtMost ⟨negative, significand, (k : Int)⟩ bound ↔
    significand * 2 ^ k ≤ bound := by
  have hden : (-(k : Int)).toNat = 0 := by omega
  simp [AtMost, numerator, denominator, hden, Nat.pow_eq]

theorem atMost_of_nonpos :
    AtMost ⟨negative, significand, -(k : Int)⟩ bound ↔
    significand ≤ bound * 2 ^ k := by
  have hnum : (-(k : Int)).toNat = 0 := by omega
  simp [AtMost, numerator, denominator, hnum, Nat.pow_eq]

theorem AtMost.carry {e : Int} (h : AtMost ⟨negative, 2 ^ 53, e⟩ bound) :
    AtMost ⟨negative, 2 ^ 52, e + 1⟩ bound := by
  rcases Int.lt_or_le e 0 with hneg | hnonneg
  · obtain ⟨k, rfl⟩ : ∃ k : Nat, e = -((k + 1 : Nat) : Int) :=
      ⟨(-e - 1).toNat, by omega⟩
    have hexp : -((k + 1 : Nat) : Int) + 1 = -(k : Int) := by omega
    have hpow : bound * 2 ^ (k + 1) = bound * 2 ^ k * 2 := by
      rw [Nat.pow_succ, Nat.mul_assoc]
    rw [atMost_of_nonpos, hpow] at h
    rw [hexp, atMost_of_nonpos]
    omega
  · obtain ⟨k, rfl⟩ := Int.eq_ofNat_of_zero_le hnonneg
    rw [atMost_of_nonneg] at h
    have hexp : (k : Int) + 1 = (k + 1 : Nat) := rfl
    have hpow : 2 ^ (k + 1) = 2 ^ k * 2 := pow_succ 2 k
    rw [hexp, atMost_of_nonneg, hpow]
    omega

theorem roundedSignificand_atMost {s j : Nat} (hnum : num ≠ 0) (hden : den ≠ 0)
    (hs : s < 2 ^ 53) (hle : num ≤ s * 2 ^ j * den) :
    AtMost ⟨negative, roundedSignificand num den, roundingExponent num den⟩
      (s * 2 ^ j) := by
  have hpos : 0 < den := Nat.pos_of_ne_zero hden
  rw [roundedSignificand]
  rcases Int.lt_or_le (roundingExponent num den) 0 with hneg | hnonneg
  · obtain ⟨k, hexp⟩ : ∃ k : Nat, roundingExponent num den = -(k : Int) :=
      ⟨(-roundingExponent num den).toNat, by omega⟩
    rw [hexp, scaled_of_nonpos, atMost_of_nonpos]
    have hscaled : num * 2 ^ k ≤ s * 2 ^ j * 2 ^ k * den := by
      calc num * 2 ^ k ≤ s * 2 ^ j * den * 2 ^ k := Nat.mul_le_mul_right _ hle
        _ = s * 2 ^ j * 2 ^ k * den := by ac_rfl
    refine halfEven_le ?_
    dsimp only
    rw [Nat.add_mul, Nat.mul_assoc]
    omega
  · obtain ⟨k, hexp⟩ := Int.eq_ofNat_of_zero_le hnonneg
    have hk : k ≤ j := by
      have hbinade : ((k + 52 : Nat) : Int) ≤ binade num den := by
        rw [roundingExponent] at hexp
        omega
      have hlow := ((le_binade_iff hnum hden _).mp hbinade).trans hle
      rw [Nat.mul_comm den] at hlow
      have hpow : 2 ^ (k + 52) < 2 ^ (53 + j) := by
        rw [Nat.pow_add 2 53]
        exact (Nat.le_of_mul_le_mul_right hlow hpos).trans_lt
          (Nat.mul_lt_mul_of_pos_right hs (Nat.two_pow_pos _))
      have := (Nat.pow_lt_pow_iff_right (by decide)).mp hpow
      omega
    have hsplit : s * 2 ^ j = s * 2 ^ (j - k) * 2 ^ k := by
      rw [Nat.mul_assoc, ← Nat.pow_add, Nat.sub_add_cancel hk]
    rw [hexp, scaled_of_nonneg, atMost_of_nonneg, hsplit]
    refine Nat.mul_le_mul_right _ (halfEven_le ?_)
    have hscaled : num ≤ s * 2 ^ (j - k) * (den * 2 ^ k) := by
      calc num ≤ s * 2 ^ j * den := hle
        _ = s * 2 ^ (j - k) * (den * 2 ^ k) := by
          rw [hsplit]
          ac_rfl
    have hunit : 0 < den * 2 ^ k := Nat.mul_pos hpos (Nat.two_pow_pos _)
    dsimp only
    rw [Nat.add_mul, Nat.mul_assoc]
    omega

theorem AtMost.of_ofRatio? {x : Binary64} {s j : Nat}
    (h : ofRatio? negative num den = some x) (hden : den ≠ 0) (hs : s < 2 ^ 53)
    (hle : num ≤ s * 2 ^ j * den) : AtMost x (s * 2 ^ j) := by
  by_cases hnum : num = 0
  · subst hnum
    rw [ofRatio?, if_pos rfl] at h
    cases h
    simp [AtMost, zero, numerator]
  have hrounded :
      AtMost ⟨negative, roundedSignificand num den, roundingExponent num den⟩
      (s * 2 ^ j) := roundedSignificand_atMost hnum hden hs hle
  by_cases hcarry : roundedSignificand num den = 2 ^ 53
  · rw [ofRatio?_carry hnum hcarry] at h
    obtain ⟨-, h⟩ := Option.ite_none_left_eq_some.mp h
    cases h
    rw [hcarry] at hrounded
    exact hrounded.carry
  · rw [ofRatio?_keep hnum hcarry] at h
    obtain ⟨-, h⟩ := Option.ite_none_left_eq_some.mp h
    cases h
    exact hrounded

end

/-! ## Numbers, products and quotients within a bound -/

theorem isSome_ofRatio? {negative : Bool} {num den : Nat} (hden : den ≠ 0)
    (h : num < overflow * den) : (ofRatio? negative num den).isSome := by
  rw [Option.isSome_iff_ne_none, ne_eq, ofRatio?_eq_none_iff hden]
  exact Nat.not_le.mpr h

section

variable {x y : Binary64} {s j : Nat}

theorem atMost_ofNat {n : Nat} (hs : s < 2 ^ 53) (hle : n ≤ s * 2 ^ j)
    (hbound : s * 2 ^ j < overflow) : AtMost (ofNat n) (s * 2 ^ j) := by
  have hsome : (ofRatio? false n 1).isSome :=
    isSome_ofRatio? Nat.one_ne_zero
      (by rw [Nat.mul_one]; exact hle.trans_lt hbound)
  obtain ⟨x, hx⟩ := Option.isSome_iff_exists.mp hsome
  rw [ofNat, hx, Option.getD_some]
  exact AtMost.of_ofRatio? hx Nat.one_ne_zero hs (by rwa [Nat.mul_one])

theorem AtMost.isSome_mul? {bound : Nat} (hx : AtMost x bound)
    (hy : bound * y.numerator < overflow * y.denominator) :
    (x.mul? y).isSome := by
  refine isSome_ofRatio?
    (Nat.mul_ne_zero x.denominator_ne_zero y.denominator_ne_zero) ?_
  calc x.numerator * y.numerator ≤ bound * x.denominator * y.numerator :=
        Nat.mul_le_mul_right _ hx
    _ = bound * y.numerator * x.denominator := by ac_rfl
    _ < overflow * y.denominator * x.denominator :=
        Nat.mul_lt_mul_of_pos_right hy x.denominator_pos
    _ = overflow * (x.denominator * y.denominator) := by
        rw [Nat.mul_assoc, Nat.mul_comm y.denominator]

theorem AtMost.exists_div? (hx : AtMost x (s * 2 ^ j)) (hs : s < 2 ^ 53)
    (hbound : s * 2 ^ j < overflow) (hy : y.denominator ≤ y.numerator) :
    ∃ z, x.div? y = some z ∧ AtMost z (s * 2 ^ j) := by
  have hpos : 0 < y.numerator := y.denominator_pos.trans_le hy
  have hden : x.denominator * y.numerator ≠ 0 :=
    Nat.mul_ne_zero x.denominator_ne_zero hpos.ne'
  have hle :
      x.numerator * y.denominator ≤ s * 2 ^ j *
        (x.denominator * y.numerator) := by
    calc x.numerator * y.denominator ≤ s * 2 ^ j *
      x.denominator * y.numerator :=
          Nat.mul_le_mul hx hy
      _ = s * 2 ^ j * (x.denominator * y.numerator) := Nat.mul_assoc ..
  have hlt :
      x.numerator * y.denominator < overflow * (x.denominator * y.numerator) :=
    hle.trans_lt
      (Nat.mul_lt_mul_of_pos_right hbound (Nat.mul_pos x.denominator_pos hpos))
  obtain ⟨z, hz⟩ := Option.isSome_iff_exists.mp (isSome_ofRatio? hden hlt)
  exact ⟨z, hz, AtMost.of_ofRatio? hz hden hs hle⟩

end

end Workflows.Binary64
