import Workflows.Proofs.Number.Rounding

/-!
# Quotients of natural numbers

The quotient of two natural numbers is rounded, and still it compares with
natural numbers as the exact ratio does: below `2 ^ 53` the numbers of the
format lie closer together than a ratio that is not a natural number can come to
one.
-/

namespace Workflows.Binary64

def Below (x : Binary64) (bound : Nat) : Prop :=
  x.numerator < bound * x.denominator

/-! ## Rounded numbers below a bound -/

section

variable {negative : Bool} {significand bound num den k : Nat}

theorem below_of_nonpos :
    Below ⟨negative, significand, -(k : Int)⟩ bound ↔
    significand < bound * 2 ^ k := by
  have hnum : (-(k : Int)).toNat = 0 := by omega
  simp [Below, numerator, denominator, hnum, Nat.pow_eq]

theorem below_carry :
    Below ⟨negative, 2 ^ 52, -(k : Int) + 1⟩ bound ↔
    2 ^ 53 < bound * 2 ^ k := by
  cases k with
  | zero =>
      simp [Below, numerator, denominator, Nat.pow_eq]
  | succ k =>
      have hexp : -((k + 1 : Nat) : Int) + 1 = -(k : Int) := by omega
      have hpow : bound * 2 ^ (k + 1) = bound * 2 ^ k * 2 := by
        rw [Nat.pow_succ, Nat.mul_assoc]
      rw [hexp, below_of_nonpos, hpow]
      omega

theorem exists_ofRatio?_below (negative : Bool) (hnum : num ≠ 0)
    (hexp : roundingExponent num den = -(k : Int)) :
    ∃ x, ofRatio? negative num den = some x ∧ x.negative = negative ∧
      ∀ bound, Below x bound ↔ roundedSignificand num den < bound * 2 ^ k := by
  by_cases hcarry : roundedSignificand num den = 2 ^ 53
  · have hsmall : ¬ 971 < roundingExponent num den + 1 := by omega
    refine ⟨_, (ofRatio?_carry hnum hcarry).trans (if_neg hsmall), rfl,
      fun bound => ?_⟩
    rw [hexp, hcarry, below_carry]
  · have hsmall : ¬ 971 < roundingExponent num den := by omega
    refine ⟨_, (ofRatio?_keep hnum hcarry).trans (if_neg hsmall), rfl,
      fun bound => ?_⟩
    rw [hexp, below_of_nonpos]

end

/-! ## Ratios of natural numbers -/

section

variable {n d c : Nat}

/-- The exponent that a ratio is rounded with leaves half a unit less than the
denominator's share: no ratio with this denominator comes closer to a natural
number than that. -/
theorem exists_roundingExponent (hd : d ≠ 0) (hc : c ≠ 0)
    (hle : d ≤ n) (hn : n < 2 ^ 53) :
    ∃ k : Nat, roundingExponent (n * c) (d * c) = -(k : Int) ∧
    d < 2 ^ (k + 1) := by
  have hpos : 0 < c := Nat.pos_of_ne_zero hc
  have hpow (j : Nat) : (j : Int) ≤ binade (n * c) (d * c) ↔ d * 2 ^ j ≤ n := by
    rw [le_binade_iff (Nat.mul_ne_zero (by omega) hc) (Nat.mul_ne_zero hd hc),
      Nat.mul_right_comm, Nat.mul_le_mul_right_iff hpos]
  have hlow : 0 ≤ binade (n * c) (d * c) :=
    (hpow 0).mpr (by rwa [Nat.pow_zero, Nat.mul_one])
  obtain ⟨b, hb⟩ := Int.eq_ofNat_of_zero_le hlow
  have hratio : d * 2 ^ b ≤ n := (hpow b).mp (by omega)
  have hb53 : 2 ^ b < 2 ^ 53 :=
    (Nat.le_mul_of_pos_left _ (Nat.pos_of_ne_zero hd)).trans_lt
      (hratio.trans_lt hn)
  have hlt : b < 53 := (Nat.pow_lt_pow_iff_right (by decide)).mp hb53
  refine ⟨52 - b, by rw [roundingExponent]; omega, ?_⟩
  have hsplit : (2 : Nat) ^ 53 = 2 ^ (52 - b + 1) * 2 ^ b := by
    rw [← Nat.pow_add]
    congr 1
    omega
  exact Nat.lt_of_mul_lt_mul_right (hratio.trans_lt (hsplit ▸ hn))

theorem exists_ofRatio?_natural (hd : d ≠ 0) (hc : c ≠ 0)
    (hle : d ≤ n) (hn : n < 2 ^ 53) :
    ∃ x, ofRatio? false (n * c) (d * c) = some x ∧ x.negative = false ∧
      ∀ bound, Below x bound ↔ n < bound * d := by
  obtain ⟨k, hexp, hunit⟩ := exists_roundingExponent hd hc hle hn
  obtain ⟨x, hx, hnegative, hbelow⟩ :=
    exists_ofRatio?_below false (Nat.mul_ne_zero (by omega) hc) hexp
  refine ⟨x, hx, hnegative, fun bound => (hbelow bound).trans ?_⟩
  rw [roundedSignificand, hexp, scaled_of_nonpos]
  dsimp only
  have hden : 0 < d * c :=
    Nat.mul_pos (Nat.pos_of_ne_zero hd) (Nat.pos_of_ne_zero hc)
  constructor
  · -- a natural number up to the ratio is at most what that is rounded to
    intro hlt
    by_contra hge
    have hfloor : bound * 2 ^ k ≤ n * c * 2 ^ k / (d * c) := by
      rw [Nat.le_div_iff_mul_le hden]
      calc bound * 2 ^ k * (d * c) = bound * d * (c * 2 ^ k) := by ac_rfl
        _ ≤ n * (c * 2 ^ k) := Nat.mul_le_mul_right _ (Nat.le_of_not_lt hge)
        _ = n * c * 2 ^ k := (Nat.mul_assoc ..).symm
    exact absurd (hfloor.trans (div_le_halfEven _ _)) (Nat.not_le.mpr hlt)
  · -- one that is greater is so by more than half a unit
    intro hlt
    have hgap : (n + 1) * (c * 2 ^ k) ≤ bound * 2 ^ k * (d * c) := by
      calc (n + 1) * (c * 2 ^ k) ≤ bound * d * (c * 2 ^ k) :=
        Nat.mul_le_mul_right _ hlt
        _ = bound * 2 ^ k * (d * c) := by ac_rfl
    have hshare : d * c < 2 * (c * 2 ^ k) := by
      calc d * c < 2 ^ (k + 1) * c :=
        Nat.mul_lt_mul_of_pos_right hunit (Nat.pos_of_ne_zero hc)
        _ = 2 * (c * 2 ^ k) := by
          rw [Nat.pow_succ]
          ac_rfl
    have hbound : 0 < bound := Nat.pos_of_ne_zero fun h => by simp [h] at hlt
    obtain ⟨q, hq⟩ :=
      Nat.exists_eq_add_one.mpr (Nat.mul_pos hbound (Nat.two_pow_pos k))
    rw [hq] at hgap ⊢
    refine Nat.lt_succ_of_le (halfEven_le ?_)
    rw [Nat.mul_assoc n]
    generalize c * 2 ^ k = unit at hgap hshare ⊢
    simp only [Nat.add_mul, Nat.one_mul, Nat.mul_assoc] at hgap ⊢
    omega

end

/-! ## Quotients -/

theorem lt_ofNat_iff {x : Binary64} (hx : x.negative = false)
    {n : Nat} (hn : n < 2 ^ 53) :
    x.lt (ofNat n) = true ↔ Below x n := by
  have hwhole := whole_numerator false hn
  have hpos := (whole false n).denominator_pos
  rw [ofNat_eq_whole hn, lt, decide_eq_true_eq, signedNumerator,
    signedNumerator, hx, whole_negative, if_neg Bool.false_ne_true,
    if_neg Bool.false_ne_true, hwhole, Below]
  norm_cast
  rw [Nat.mul_right_comm]
  exact Nat.mul_lt_mul_right hpos

theorem not_lt_zero {x : Binary64} (hx : x.negative = false) :
    x.lt (ofNat 0) = false := by
  rw [Bool.eq_false_iff]
  intro hlt
  have hbelow := (lt_ofNat_iff hx (by decide)).mp hlt
  rw [Below, Nat.zero_mul] at hbelow
  exact Nat.not_lt_zero _ hbelow

/-- The quotient of natural numbers below `2 ^ 53`, of which the divisor is not
the greater one, is less than a natural number if and only if the exact ratio
is. -/
theorem exists_div?_lt_iff {n d : Nat} (hd : d ≠ 0)
    (hle : d ≤ n) (hn : n < 2 ^ 53) :
    ∃ x, (ofNat n).div? (ofNat d) = some x ∧
      ∀ bound < 2 ^ 53, x.lt (ofNat bound) = true ↔ n < bound * d := by
  have hd53 : d < 2 ^ 53 := hle.trans_lt hn
  have hcommon :
      (whole false n).denominator * (whole false d).denominator ≠ 0 :=
    Nat.mul_ne_zero (denominator_ne_zero _) (denominator_ne_zero _)
  obtain ⟨x, hx, hnegative, hbelow⟩ := exists_ofRatio?_natural hd hcommon hle hn
  refine ⟨x, ?_, fun bound hbound =>
    (lt_ofNat_iff hnegative hbound).trans (hbelow bound)⟩
  rw [← hx, ofNat_eq_whole hn, ofNat_eq_whole hd53, div?, whole_negative,
    whole_negative, whole_numerator false hn, whole_numerator false hd53]
  congr 1 <;> ac_rfl

theorem negative_ofRatio? {negative : Bool} {num den : Nat} {x : Binary64}
    (h : ofRatio? negative num den = some x) : x.negative = negative := by
  unfold ofRatio? at h
  split at h
  · cases h
    rfl
  · obtain ⟨-, h⟩ := Option.ite_none_left_eq_some.mp h
    cases h
    rfl

theorem negative_ofNat (n : Nat) : (ofNat n).negative = false := by
  rw [ofNat]
  cases h : ofRatio? false n 1 with
  | none => rfl
  | some x => exact negative_ofRatio? h

theorem negative_div?_ofNat {n d : Nat} {x : Binary64}
    (h : (ofNat n).div? (ofNat d) = some x) :
    x.negative = false := by
  rw [negative_ofRatio? h, negative_ofNat, negative_ofNat]
  rfl

end Workflows.Binary64
