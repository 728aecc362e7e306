import Workflows.Proofs.Number.Decimal
import Workflows.Proofs.Number.Rounding

/-!
# Shortest digits

The digits of a number are those of a multiple of a power of ten that reads back
as the number: at most seventeen of them, the first one no zero.  Its text has
digits, signs, a point and the mark of the exponent, and no other characters.
-/

namespace Workflows.Binary64

/-! ## Powers of ten -/

section

variable {num den : Nat}

theorem scaledTen_of_nonneg (num den k : Nat) :
    scaledTen num den k = (num, den * 10 ^ k) := by
  have hsign : ¬ (k : Int) < 0 := by omega
  simp [scaledTen, hsign]

theorem scaledTen_of_nonpos (num den k : Nat) :
    scaledTen num den (-(k : Int)) = (num * 10 ^ k, den) := by
  cases k with
  | zero => simp [scaledTen]
  | succ k =>
      have hsign : -((k + 1 : Nat) : Int) < 0 := by omega
      simp only [scaledTen, hsign, ↓reduceIte, Int.neg_neg, Int.toNat_natCast,
        Nat.pow_eq]

theorem scaledTen_lt_mul {grid : Int} {j : Nat}
    (h : (scaledTen num den (grid + j)).1 < (scaledTen num den (grid + j)).2) :
    (scaledTen num den grid).1 < (scaledTen num den grid).2 * 10 ^ j := by
  have hpow (a b : Nat) : 10 ^ (a + b) = 10 ^ a * 10 ^ b := Nat.pow_add 10 a b
  rcases Int.le_total 0 grid with hgrid | hgrid
  · obtain ⟨a, rfl⟩ := Int.eq_ofNat_of_zero_le hgrid
    have hsum : (a : Int) + j = (a + j : Nat) := rfl
    rw [hsum, scaledTen_of_nonneg, hpow] at h
    rw [scaledTen_of_nonneg, Nat.mul_assoc]
    exact h
  · obtain ⟨a, rfl⟩ : ∃ a : Nat, grid = -(a : Int) := ⟨(-grid).toNat, by omega⟩
    rw [scaledTen_of_nonpos]
    rcases Nat.le_total j a with hle | hle
    · obtain ⟨b, rfl⟩ := Nat.exists_eq_add_of_le hle
      have hsum : -((j + b : Nat) : Int) + j = -(b : Int) := by omega
      rw [hsum, scaledTen_of_nonpos] at h
      rw [hpow, Nat.mul_comm (10 ^ j), ← Nat.mul_assoc]
      exact Nat.mul_lt_mul_of_pos_right h (Nat.pow_pos (by decide))
    · obtain ⟨b, rfl⟩ := Nat.exists_eq_add_of_le hle
      have hsum : -(a : Int) + (a + b : Nat) = (b : Int) := by omega
      rw [hsum, scaledTen_of_nonneg] at h
      rw [hpow, Nat.mul_comm (10 ^ a), ← Nat.mul_assoc]
      exact Nat.mul_lt_mul_of_pos_right h (Nat.pow_pos (by decide))

theorem lt_pow_length (n : Nat) : n < 10 ^ (Nat.toDigits 10 n).length :=
  (Nat.length_toDigits_le_iff (by decide) Nat.length_toDigits_pos).mp le_rfl

theorem lt_decade (hnum : 0 < num) (hden : 0 < den) :
    (scaledTen num den (decade num den + 1)).1 <
      (scaledTen num den (decade num den + 1)).2 := by
  rw [decade]
  split
  · next hle =>
      have hexp : ((Nat.toDigits 10 (num / den)).length : Int) - 1 + 1 =
          ((Nat.toDigits 10 (num / den)).length : Nat) := by omega
      have hlt := (Nat.div_lt_iff_lt_mul hden).mp (lt_pow_length (num / den))
      rw [hexp, scaledTen_of_nonneg, Nat.mul_comm]
      exact hlt
  · next hlt =>
      have hquot : 0 < den / num := Nat.div_pos (by omega) hnum
      have hle : num * 10 ^ ((Nat.toDigits 10 (den / num)).length - 1) ≤
          den := by
        rw [Nat.mul_comm]
        exact (Nat.le_div_iff_mul_le hnum).mp (pow_length_le hquot)
      have hlength : 0 < (Nat.toDigits 10 (den / num)).length :=
        Nat.length_toDigits_pos
      generalize (Nat.toDigits 10 (den / num)).length = length at hle hlength
      obtain ⟨below, rfl⟩ := Nat.exists_eq_add_one.mpr hlength
      rw [Nat.add_sub_cancel] at hle
      dsimp only
      rw [Nat.add_sub_cancel, Nat.pow_eq]
      split
      · next heq =>
          -- an exact power of ten, which is not the first one
          obtain ⟨k, rfl⟩ : ∃ k, below = k + 1 := by
            refine Nat.exists_eq_add_one.mpr (Nat.pos_of_ne_zero fun hzero =>
              ?_)
            rw [hzero] at heq
            omega
          have hexp : -(((k + 1 + 1 : Nat) : Int) - 1) + 1 = -(k : Int) := by
            omega
          rw [hexp, scaledTen_of_nonpos]
          rw [Nat.pow_succ, ← Nat.mul_assoc] at heq
          have hpos : 0 < num * 10 ^ k :=
            Nat.mul_pos hnum (Nat.pow_pos (by decide))
          omega
      · next hne =>
          have hexp : -((below + 1 : Nat) : Int) + 1 = -(below : Int) := by
            omega
          rw [hexp, scaledTen_of_nonpos]
          exact Nat.lt_of_le_of_ne hle hne

end

/-! ## Digits that read back -/

section

variable {x : Binary64} {n : Nat} {grid : Int}

theorem onGrid?_eq_some (h : x.onGrid? grid = some n) :
    ofDecimal? false n grid = some x ∧
    n ≤ (scaledTen x.numerator x.denominator grid).1 /
      (scaledTen x.numerator x.denominator grid).2 + 1 := by
  unfold onGrid? at h
  dsimp only at h
  generalize scaledTen x.numerator x.denominator grid = ratio at h ⊢
  have hle := div_le_halfEven ratio.1 ratio.2
  have hsucc := halfEven_le_succ ratio.1 ratio.2
  split at h
  · next hlower hupper =>
      obtain rfl := Option.some.inj h
      refine ⟨?_, hsucc⟩
      rcases hle.lt_or_eq with hlt | heq
      · rw [show halfEven ratio.1 ratio.2 = ratio.1 / ratio.2 + 1 by omega]
        exact beq_iff_eq.mp hupper
      · rw [← heq]
        exact beq_iff_eq.mp hlower
  · next hlower _ =>
      obtain rfl := Option.some.inj h
      exact ⟨beq_iff_eq.mp hlower, Nat.le_succ _⟩
  · next _ hupper =>
      obtain rfl := Option.some.inj h
      exact ⟨beq_iff_eq.mp hupper, le_rfl⟩
  · cases h

theorem onGrid?_le {k : Nat} (hx : 0 < x.numerator)
    (h : x.onGrid? (decade x.numerator x.denominator - k) = some n) :
    n ≤ 10 ^ (k + 1) := by
  obtain ⟨-, hle⟩ := onGrid?_eq_some h
  have hdecade := lt_decade hx x.denominator_pos
  have hgrid : decade x.numerator x.denominator + 1 =
      decade x.numerator x.denominator - k + (k + 1 : Nat) := by omega
  rw [hgrid] at hdecade
  have hlt := Nat.div_lt_of_lt_mul (scaledTen_lt_mul hdecade)
  omega

theorem exists_shortest (x : Binary64) :
    ∃ n grid, x.shortest = Digits.ofGrid n grid ∧
    (n = 0 ∧ grid = 0 ∨ ∃ k < 17,
      grid = decade x.numerator x.denominator - (k : Nat) ∧
      x.onGrid? grid = some n) := by
  unfold shortest
  dsimp only
  cases hfound : (List.range 17).findSome? fun (k : Nat) =>
      (x.onGrid? (decade x.numerator x.denominator - k)).map fun digits =>
        Digits.ofGrid digits (decade x.numerator x.denominator - k) with
  | none => exact ⟨0, 0, rfl, .inl ⟨rfl, rfl⟩⟩
  | some d =>
      obtain ⟨k, hk, hdigits⟩ := List.exists_of_findSome?_eq_some hfound
      obtain ⟨n, hn, rfl⟩ := Option.map_eq_some_iff.mp hdigits
      exact ⟨n, _, rfl, .inr ⟨k, List.mem_range.mp hk, rfl, hn⟩⟩

theorem lt_overflow_of_ofRatio? {negative : Bool} {num den : Nat}
    (hden : den ≠ 0) (h : ofRatio? negative num den = some x) :
    num < overflow * den := by
  refine Nat.not_le.mp fun hle => ?_
  rw [(ofRatio?_eq_none_iff hden).mpr hle] at h
  cases h

theorem lt_overflow_of_ofDecimal? {m k e : Nat} (hx : 0 < x.numerator)
    (h : ofDecimal? false (m * 10 ^ k) grid = some x) (he : grid + k = e) :
    m * 10 ^ e < overflow := by
  have hzero : x ≠ zero false := by
    rintro rfl
    simp [zero, numerator] at hx
  have hpos : 0 < 10 ^ (-grid).toNat := Nat.pow_pos (by decide)
  simp only [ofDecimal?, Nat.pow_eq] at h
  split at h
  · exact absurd (Option.some.inj h).symm hzero
  split at h
  · cases h
  split at h
  · exact absurd (Option.some.inj h).symm hzero
  split at h
  · have hlt := lt_overflow_of_ofRatio? hpos.ne' h
    rw [show k = e + (-grid).toNat by omega,
      Nat.pow_add, ← Nat.mul_assoc] at hlt
    exact Nat.lt_of_mul_lt_mul_right hlt
  · have hlt := lt_overflow_of_ofRatio? Nat.one_ne_zero h
    rw [Nat.mul_one, Nat.mul_assoc, ← Nat.pow_add,
      show k + grid.toNat = e by omega] at hlt
    exact hlt

end

/-! ## Characters -/

def isNumeral (c : Char) : Bool :=
  c.isDigit || c == '-' || c == '+' || c == '.' || c == 'e'

theorem isNumeral_of_isDigit {c : Char} (h : c.isDigit = true) :
    isNumeral c = true := by
  simp [isNumeral, h]

theorem isNumeral_toDigits (n : Nat) :
    ∀ c ∈ Nat.toDigits 10 n, isNumeral c = true :=
  fun _ hc =>
    isNumeral_of_isDigit
      (Nat.isDigit_of_mem_toDigits (by decide) (by decide) hc)

theorem isNumeral_replicate {c : Char} (h : isNumeral c = true) (count : Nat) :
    ∀ d ∈ List.replicate count c, isNumeral d = true :=
  fun _ hd => (List.eq_of_mem_replicate hd).symm ▸ h

theorem isNumeral_shortest (x : Binary64) :
    ∀ c ∈ x.shortest.digits, isNumeral c = true := by
  intro c hc
  obtain ⟨n, grid, hd, -⟩ := exists_shortest x
  rw [hd, Digits.ofGrid, List.mem_reverse] at hc
  exact isNumeral_toDigits n c
    (List.mem_reverse.mp ((List.dropWhile_sublist _).subset hc))

namespace Digits

variable {d : Digits}

theorem isNumeral_positional (h : ∀ c ∈ d.digits, isNumeral c = true) :
    ∀ c ∈ d.positional, isNumeral c = true := by
  have hzeros := isNumeral_replicate (c := '0') (by decide)
  unfold positional
  dsimp only
  split
  · simp only [List.forall_mem_cons, List.forall_mem_append]
    exact ⟨by decide, by decide, hzeros _, h⟩
  · split
    · simp only [List.forall_mem_cons, List.forall_mem_append]
      exact ⟨⟨h, hzeros _⟩, by decide, by decide, nofun⟩
    · simp only [List.forall_mem_cons, List.forall_mem_append]
      exact ⟨fun c hc => h c (List.mem_of_mem_take hc), by decide,
        fun c hc => h c (List.mem_of_mem_drop hc)⟩

theorem isNumeral_scientific (h : ∀ c ∈ d.digits, isNumeral c = true) :
    ∀ c ∈ d.scientific, isNumeral c = true := by
  have hrest : ∀ c ∈ d.digits.drop 1, isNumeral c = true :=
    fun c hc => h c (List.mem_of_mem_drop hc)
  have hexponent := isNumeral_toDigits d.exponent.natAbs
  unfold scientific
  simp only [List.forall_mem_cons, List.forall_mem_append]
  refine ⟨⟨fun c hc => h c (List.mem_of_mem_take hc), ?_⟩, by decide, ?_,
    hexponent⟩
  · split
    · nofun
    · exact List.forall_mem_cons.mpr ⟨by decide, hrest⟩
  · split <;> decide

theorem positional_ne_nil (d : Digits) : d.positional ≠ [] := by
  unfold positional
  dsimp only
  split
  · exact List.cons_ne_nil _ _
  · split <;> simp

theorem text_ne_nil (layout : Layout) (d : Digits) : d.text layout ≠ [] := by
  unfold text
  split
  · exact d.positional_ne_nil
  · simp [scientific]

end Digits

theorem isNumeral_text (layout : Layout) (x : Binary64) :
    ∀ c ∈ x.text layout, isNumeral c = true := by
  have hmagnitude : ∀ c ∈ (if x.isZero then ['0', '.', '0'] else
      ({ x with negative := false }).shortest.text layout),
      isNumeral c = true := by
    split
    · simp only [List.forall_mem_cons]
      exact ⟨by decide, by decide, by decide, nofun⟩
    · unfold Digits.text
      split
      · exact Digits.isNumeral_positional (isNumeral_shortest _)
      · exact Digits.isNumeral_scientific (isNumeral_shortest _)
  unfold text
  dsimp only
  split
  · exact List.forall_mem_cons.mpr ⟨by decide, hmagnitude⟩
  · exact hmagnitude

theorem text_ne_nil (layout : Layout) (x : Binary64) : x.text layout ≠ [] := by
  unfold text
  dsimp only
  split
  · exact List.cons_ne_nil _ _
  · split
    · exact List.cons_ne_nil _ _
    · exact Digits.text_ne_nil layout _

end Workflows.Binary64
