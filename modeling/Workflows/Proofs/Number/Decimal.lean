import Mathlib.Data.List.DropRight
import Workflows.Number.Shortest
import Workflows.Proofs.Number.Whole

/-!
# Decimal text of whole numbers

A whole number below `2 ^ 40` is written as its decimal digits, a point and a
zero.  The search for the fewest digits passes over coarse grids on which the
number does not lie, since nothing on them reads back, and stops at the latest
on the grid of the units.
-/

namespace Workflows.Binary64

/-! ## Decimal digits -/

theorem toDigits_mul_pow {n : Nat} (hn : 0 < n) (g : Nat) :
    Nat.toDigits 10 (n * 10 ^ g) = Nat.toDigits 10 n ++
      List.replicate g '0' := by
  induction g with
  | zero => simp
  | succ g ih =>
      have hpos : 0 < n * 10 ^ g := Nat.mul_pos hn (Nat.pow_pos (by decide))
      have hstep :=
        Nat.toDigits_append_toDigits (b := 10) (by decide) hpos
          (d := 0) (by decide)
      have hmul : 10 * (n * 10 ^ g) + 0 = n * 10 ^ (g + 1) := by
        rw [Nat.pow_succ]
        ac_rfl
      rw [hmul, Nat.toDigits_zero, ih] at hstep
      rw [← hstep, List.append_assoc, List.replicate_succ']

theorem pow_length_le {n : Nat} (hn : 0 < n) :
    10 ^ ((Nat.toDigits 10 n).length - 1) ≤ n := by
  rcases Nat.eq_zero_or_pos ((Nat.toDigits 10 n).length - 1) with h | h
  · rw [h]
    exact hn
  · by_contra hlt
    have := (Nat.length_toDigits_le_iff (b := 10) (by decide) h).mpr
      (Nat.not_le.mp hlt)
    omega

theorem length_toDigits_le {n : Nat} (hn : n < 2 ^ 40) :
    (Nat.toDigits 10 n).length ≤ 13 :=
  (Nat.length_toDigits_le_iff (by decide) (by decide)).mpr (by omega)

/-! ## Reading candidates back -/

theorem ofDecimal?_whole (negative : Bool) {digits g : Nat}
    (h : digits * 10 ^ g < 2 ^ 53) :
    ofDecimal? negative digits g = some (whole negative (digits * 10 ^ g)) := by
  by_cases hzero : digits = 0
  · simp [ofDecimal?, whole, hzero]
  have hpos : 0 < digits := Nat.pos_of_ne_zero hzero
  have hdigits : digits < 10 ^ 16 := by
    have : digits ≤ digits * 10 ^ g :=
      Nat.le_mul_of_pos_right _ (Nat.pow_pos (by decide))
    omega
  have hlength : (Nat.toDigits 10 digits).length ≤ 16 :=
    (Nat.length_toDigits_le_iff (by decide) (by decide)).mpr hdigits
  have hg : g < 16 := by
    have : 10 ^ g ≤ digits * 10 ^ g := Nat.le_mul_of_pos_left _ hpos
    exact (Nat.pow_lt_pow_iff_right (a := 10) (by decide)).mp (by omega)
  have hexact := ofRatio?_mul negative h Nat.one_ne_zero
  rw [Nat.mul_one] at hexact
  have hhigh : ¬ (310 : Int) < (Nat.toDigits 10 digits).length + (g : Int) := by
    omega
  have hlow : ¬ ((Nat.toDigits 10 digits).length + (g : Int)) < -330 := by omega
  have hneg : ¬ (g : Int) < 0 := by omega
  simp only [ofDecimal?, hzero, hhigh, hlow, hneg, ↓reduceIte,
    Int.toNat_natCast, Nat.pow_eq, hexact]

theorem decade_mul {n den : Nat} (hn : 0 < n) (hden : 0 < den) :
    decade (n * den) den = ((Nat.toDigits 10 n).length - 1 : Nat) := by
  have hle : den ≤ n * den := Nat.le_mul_of_pos_left _ hn
  have hpos : 0 < (Nat.toDigits 10 n).length := Nat.length_toDigits_pos
  rw [decade, if_pos hle, Nat.mul_div_cancel _ hden]
  omega

theorem onGrid?_whole {n g : Nat} (hn : n < 2 ^ 40) (hg : 10 ^ g ≤ n) :
    (whole false n).onGrid? g = if 10 ^ g ∣ n then some
      (n / 10 ^ g) else none := by
  have hn53 : n < 2 ^ 53 := by omega
  have hpow : 0 < 10 ^ g := Nat.pow_pos (by decide)
  have hlower : n / 10 ^ g * 10 ^ g ≤ n := Nat.div_mul_le_self _ _
  have hupper : n < (n / 10 ^ g + 1) * 10 ^ g := by
    rw [Nat.mul_comm]
    exact Nat.lt_mul_div_succ n hpow
  have hsum : (n / 10 ^ g + 1) * 10 ^ g ≤ n + n := by
    rw [Nat.add_mul, Nat.one_mul]
    exact Nat.add_le_add hlower hg
  have readsBack : ∀ {m : Nat}, m * 10 ^ g ≤ n + n →
      (ofDecimal? false m g == some (whole false n)) =
        decide (m * 10 ^ g = n) := by
    intro m hm
    have hm53 : m * 10 ^ g < 2 ^ 53 := by omega
    rw [ofDecimal?_whole false hm53, Bool.eq_iff_iff,
      beq_iff_eq, Option.some.injEq, decide_eq_true_iff]
    exact ⟨whole_inj hm53 hn53, fun h => by rw [h]⟩
  have hratio :
      scaledTen (whole false n).numerator (whole false n).denominator g =
      (n * (whole false n).denominator,
        (whole false n).denominator * 10 ^ g) := by
    have : ¬ (g : Int) < 0 := by omega
    simp only [scaledTen, this, ↓reduceIte, Int.toNat_natCast, Nat.pow_eq,
      whole_numerator false hn53]
  have hquot :
      n * (whole false n).denominator / ((whole false n).denominator * 10 ^ g) =
      n / 10 ^ g := by
    rw [Nat.mul_comm]
    exact Nat.mul_div_mul_left _ _ (denominator_pos _)
  have hnext : ¬ (n / 10 ^ g + 1) * 10 ^ g = n := by omega
  have hdvd : 10 ^ g ∣ n ↔ n / 10 ^ g * 10 ^ g = n :=
    ⟨Nat.div_mul_cancel, fun h => ⟨n / 10 ^ g, by rw [Nat.mul_comm, h]⟩⟩
  simp only [onGrid?, hratio, hquot]
  rw [readsBack (hlower.trans (Nat.le_add_right n n)), readsBack hsum]
  by_cases h : n / 10 ^ g * 10 ^ g = n <;> simp [hnext, hdvd, h]

theorem findSome?_range {β : Type} {f : Nat → Option β} {k bound : Nat}
    (hk : k < bound) (h : (f k).isSome) :
    ∃ j ≤ k, ∃ b, f j = some b ∧ (List.range bound).findSome? f = some b := by
  have hsome : ((List.range (k + 1)).findSome? f).isSome :=
    List.findSome?_isSome_iff.mpr ⟨k, List.mem_range.mpr (Nat.lt_succ_self k),
      h⟩
  obtain ⟨b, hb⟩ := Option.isSome_iff_exists.mp hsome
  obtain ⟨j, hj, hjb⟩ := List.exists_of_findSome?_eq_some hb
  have hprefix : List.range (k + 1) <+: List.range bound :=
    ⟨(List.range (bound - (k + 1))).map (k + 1 + ·), by
      rw [← List.range_add, Nat.add_sub_cancel' hk]⟩
  exact ⟨j, Nat.lt_succ_iff.mp (List.mem_range.mp hj), b,
    hjb, hprefix.findSome?_eq_some hb⟩

/-- The search ends on a grid that holds the number: the grid of the units does,
and every grid before it is that of a power of ten that is at most the
number. -/
theorem shortest_whole {n : Nat} (hpos : 0 < n) (hn : n < 2 ^ 40) :
    ∃ m g : Nat, m * 10 ^ g = n ∧ (whole false n).shortest =
      Digits.ofGrid m g := by
  have hlength := length_toDigits_le hn
  have hpow := pow_length_le hpos
  have htop : decade (whole false n).numerator (whole false n).denominator =
      ((Nat.toDigits 10 n).length - 1 : Nat) := by
    rw [whole_numerator false (by omega)]
    exact decade_mul hpos (denominator_pos _)
  have htop17 : (Nat.toDigits 10 n).length - 1 < 17 := by omega
  generalize (Nat.toDigits 10 n).length - 1 = top at hpow htop htop17
  have candidate : ∀ k ≤ top,
      (((whole false n).onGrid? (top - (k : Int))).map fun digits =>
        Digits.ofGrid digits (top - (k : Int))) =
      if 10 ^ (top - k) ∣ n then
        some (Digits.ofGrid (n / 10 ^ (top - k)) (top - k : Nat))
      else none := by
    intro k hk
    have hgrid : (top : Int) - (k : Int) = (top - k : Nat) := by omega
    have hle : 10 ^ (top - k) ≤ n :=
      Nat.le_trans (Nat.pow_le_pow_right (by decide) (Nat.sub_le _ _)) hpow
    rw [hgrid, onGrid?_whole hn hle]
    split <;> rfl
  have hunits : 10 ^ (top - top) ∣ n := by
    rw [Nat.sub_self, Nat.pow_zero]
    exact Nat.one_dvd n
  obtain ⟨k, hk, d, hd, hfound⟩ := findSome?_range htop17
    (f := fun k => ((whole false n).onGrid? (top - (k : Int))).map fun digits =>
      Digits.ofGrid digits (top - (k : Int)))
    (by rw [candidate top (Nat.le_refl top), if_pos hunits]; rfl)
  rw [candidate k hk] at hd
  obtain ⟨hdvd, hdigits⟩ := Option.ite_none_right_eq_some.mp hd
  refine ⟨_, _, Nat.div_mul_cancel hdvd, ?_⟩
  rw [shortest, htop, hfound, Option.getD_some, Option.some.inj hdigits]

/-! ## The text -/

theorem strip_append_zeros (ds : List Char) :
    ∃ zeros, (ds.reverse.dropWhile (· == '0')).reverse ++
      List.replicate zeros '0' = ds := by
  have hzeros :=
    List.eq_replicate_of_mem (a := '0') (l := ds.rtakeWhile (· == '0'))
      fun c hc =>
    beq_iff_eq.mp (List.mem_rtakeWhile_imp (p := (· == '0')) hc)
  refine ⟨(ds.rtakeWhile (· == '0')).length, ?_⟩
  rw [← hzeros]
  exact List.rdropWhile_append_rtakeWhile

theorem Digits.positional_padded {ds : List Char} {padding : Nat}
    (h : 0 < ds.length + padding) :
    Digits.positional ⟨ds, (ds.length + padding : Nat) - 1⟩ =
      ds ++ List.replicate padding '0' ++ ['.', '0'] := by
  have hexp : ¬ ((ds.length + padding : Nat) : Int) - 1 < 0 := by omega
  have hwhole : (((ds.length + padding : Nat) : Int) - 1).toNat + 1 =
      ds.length + padding := by
    omega
  simp only [positional, hexp, hwhole, Nat.le_add_right,
    ↓reduceIte, Nat.add_sub_cancel_left]

theorem Digits.positional_ofGrid {m : Nat} (hm : 0 < m) (g : Nat) :
    (Digits.ofGrid m g).positional = Nat.toDigits 10
      (m * 10 ^ g) ++ ['.', '0'] := by
  obtain ⟨zeros, hzeros⟩ := strip_append_zeros (Nat.toDigits 10 m)
  have hlength := congrArg List.length hzeros
  rw [List.length_append, List.length_replicate] at hlength
  have hlpos : 0 < (Nat.toDigits 10 m).length := Nat.length_toDigits_pos
  have hgrid : Digits.ofGrid m g =
      ⟨((Nat.toDigits 10 m).reverse.dropWhile (· == '0')).reverse,
        (((Nat.toDigits 10 m).reverse.dropWhile (· == '0')).reverse.length +
          (zeros + g) : Nat) - 1⟩ := by
    simp only [ofGrid, Digits.mk.injEq, true_and]
    omega
  rw [hgrid, positional_padded (by omega), toDigits_mul_pow hm,
    ← List.replicate_append_replicate, ← List.append_assoc, hzeros]

theorem shortest_text_whole {layout : Layout} (hleast : layout.least ≤ 0)
    (hgreatest : 12 ≤ layout.greatest) {n : Nat}
    (hpos : 0 < n) (hn : n < 2 ^ 40) :
    (whole false n).shortest.text layout = Nat.toDigits 10 n ++ ['.', '0'] := by
  obtain ⟨m, g, rfl, hshortest⟩ := shortest_whole hpos hn
  have hm : 0 < m := Nat.pos_of_mul_pos_right hpos
  have hlength := length_toDigits_le hn
  have hlpos : 0 < (Nat.toDigits 10 m).length := Nat.length_toDigits_pos
  rw [toDigits_mul_pow hm, List.length_append, List.length_replicate] at hlength
  have hfull : layout.least ≤ (Digits.ofGrid m g).exponent ∧
      (Digits.ofGrid m g).exponent ≤ layout.greatest := by
    simp only [Digits.ofGrid]
    omega
  rw [hshortest, Digits.text, if_pos hfull, Digits.positional_ofGrid hm]

theorem text_whole {layout : Layout} (hleast : layout.least ≤ 0)
    (hgreatest : 12 ≤ layout.greatest) (negative : Bool)
    {n : Nat} (hn : n < 2 ^ 40) :
    (whole negative n).text layout =
      (if negative then ['-'] else []) ++
        (Nat.toDigits 10 n ++ ['.', '0']) := by
  have hmagnitude : (if (whole negative n).isZero then ['0', '.', '0']
      else ({ whole negative n with negative := false }).shortest.text layout) =
        Nat.toDigits 10 n ++ ['.', '0'] := by
    rw [whole_isZero, whole_with_negative]
    rcases Nat.eq_zero_or_pos n with rfl | hpos
    · rfl
    · rw [if_neg (by simpa using Nat.pos_iff_ne_zero.mp hpos),
        shortest_text_whole hleast hgreatest hpos hn]
  simp only [text, whole_negative, hmagnitude]
  cases negative <;> rfl

end Workflows.Binary64
