import Workflows.Proofs.Json.Grammar
import Workflows.Proofs.Number.Digits

/-!
# Every floating-point number is read back as one

The reader rounds the digits of a number and then scales them, and each step may
round again, so what it finds can differ from the number that was written.  It
finds one all the same: dividing by a power of ten makes a number smaller, and
where it multiplies, no shortest digits come so near to the largest number that
the rounding errors matter.
-/

namespace Workflows.Json

open Binary64

/-! ## Powers of ten -/

theorem denominator_le_powerOfTen :
    ∀ e < 309, (powerOfTen e).denominator ≤ (powerOfTen e).numerator := by
  decide +kernel

theorem mul_powerOfTen_lt : ∀ e < 292,
    2 ^ 52 * 2 ^ 5 * (powerOfTen e).numerator <
    overflow * (powerOfTen e).denominator := by
  decide +kernel

theorem mul_powerOfTen_292_lt :
    8988465674311578 * 2 ^ 1 * (powerOfTen 292).numerator <
    overflow * (powerOfTen 292).denominator := by
  decide +kernel

theorem mul_powerOfTen_lt_of_lt :
    ∀ e < 309, 292 < e → (overflow - 1) / 10 ^ e < 2 ^ 53 ∧
    (overflow - 1) / 10 ^ e * 2 ^ 0 * (powerOfTen e).numerator <
      overflow * (powerOfTen e).denominator := by
  decide +kernel

theorem overflow_bounds : 2 ^ 52 * 2 ^ 12 < overflow ∧
    overflow ≤ 17976931348623159 * 10 ^ 292 ∧ overflow < 10 ^ 309 := by
  decide +kernel

theorem ofNat_odd : ofNat 17976931348623157 = ofNat 17976931348623156 := by
  decide +kernel

theorem onGrid?_of_ofDecimal?_292 {x : Binary64}
    (h : ofDecimal? false 17976931348623158 292 = some x) :
    x.onGrid? 292 ≠ some 17976931348623158 := by
  have hlargest : ofDecimal? false 17976931348623158 292 = some largest := by
    decide +kernel
  obtain rfl := Option.some.inj (hlargest.symm.trans h)
  decide +kernel

/-! ## Scaling -/

theorem isSome_scaleDown (steps : Nat) {f : Binary64}
    (hf : AtMost f (2 ^ 52 * 2 ^ 12)) (e : Nat) :
    (scaleDown steps f e).isSome := by
  induction steps generalizing f e with
  | zero => rfl
  | succ steps ih =>
      have hdivide {e : Nat} (he : e < 309) :=
        hf.exists_div? (by decide) overflow_bounds.1
          (denominator_le_powerOfTen e he)
      rw [scaleDown]
      split
      · next hle =>
          obtain ⟨z, hz, -⟩ := hdivide (Nat.lt_succ_of_le hle)
          rw [hz]
          rfl
      · split
        · rfl
        · obtain ⟨z, hz, hbound⟩ := hdivide (e := 308) (by decide)
          rw [hz, Option.bind_some]
          exact ih hbound (e - 308)

theorem isSome_scale?_of_neg {value : Nat} (hvalue : value < 2 ^ 64)
    {e : Int} (he : e < 0) :
    (scale? value e).isSome := by
  have hbound : AtMost (ofNat value) (2 ^ 52 * 2 ^ 12) :=
    atMost_ofNat (by decide) (by omega) overflow_bounds.1
  rw [scale?, if_pos he]
  exact isSome_scaleDown 4 hbound _

theorem isSome_mul_powerOfTen {m e : Nat} (hm : m ≤ 10 ^ 17) (he : e < 309)
    (hlt : m * 10 ^ e < overflow) (hlast : e = 292 → m ≠ 17976931348623158) :
    ((ofNat m).mul? (powerOfTen e)).isSome := by
  obtain ⟨hlow, hhigh, -⟩ := overflow_bounds
  rcases Nat.lt_trichotomy e 292 with hless | rfl | hgreater
  · have hbound : AtMost (ofNat m) (2 ^ 52 * 2 ^ 5) :=
      atMost_ofNat (by decide) (by omega) (by omega)
    exact hbound.isSome_mul? (mul_powerOfTen_lt e hless)
  · have hm158 : m < 17976931348623159 :=
      Nat.lt_of_mul_lt_mul_right (hlt.trans_le hhigh)
    have hm157 : m ≤ 17976931348623157 := by
      have := hlast rfl
      omega
    have hbound : AtMost (ofNat m) (8988465674311578 * 2 ^ 1) := by
      rcases hm157.lt_or_eq with hless | rfl
      · exact atMost_ofNat (by decide) (by omega) (by omega)
      · rw [ofNat_odd]
        exact atMost_ofNat (by decide) (by decide) (by omega)
    exact hbound.isSome_mul? mul_powerOfTen_292_lt
  · obtain ⟨hdigits, hproduct⟩ := mul_powerOfTen_lt_of_lt e he hgreater
    have hle : m ≤ (overflow - 1) / 10 ^ e * 2 ^ 0 := by
      rw [Nat.pow_zero, Nat.mul_one,
        Nat.le_div_iff_mul_le (Nat.pow_pos (by decide))]
      omega
    have hbound : AtMost (ofNat m) ((overflow - 1) / 10 ^ e * 2 ^ 0) :=
      atMost_ofNat hdigits hle (by omega)
    exact hbound.isSome_mul? hproduct

theorem isSome_scale? {m e : Nat} (hpos : 0 < m) (hm : m ≤ 10 ^ 17)
    (hlt : m * 10 ^ e < overflow) (hlast : e = 292 → m ≠ 17976931348623158) :
    (scale? m e).isSome := by
  have he : e < 309 := by
    refine (Nat.pow_lt_pow_iff_right (a := 10) (by decide)).mp ?_
    calc 10 ^ e ≤ m * 10 ^ e := Nat.le_mul_of_pos_left _ hpos
      _ < overflow := hlt
      _ < 10 ^ 309 := overflow_bounds.2.2
  have hsign : ¬ (e : Int) < 0 := by omega
  have hsmall : (e : Int) ≤ 308 := by omega
  rw [scale?, if_neg hsign, if_pos hsmall, Int.toNat_natCast]
  exact isSome_mul_powerOfTen hm he hlt hlast

/-! ## Shortest digits -/

structure Spells (ds : List Char) (m : Nat) : Prop where
  digits : ∀ c ∈ ds, c.isDigit = true
  head : ∃ c rest, ds = c :: rest ∧ c ≠ '0'
  value : Nat.ofDigitChars 10 ds 0 = m

theorem exists_spells {n : Nat} (hn : 0 < n) (grid : Int) :
    ∃ (m k : Nat) (ds : List Char), n = m * 10 ^ k ∧ Spells ds m ∧
      Digits.ofGrid n grid = ⟨ds, grid + k + ds.length - 1⟩ := by
  obtain ⟨k, hk⟩ := strip_append_zeros (Nat.toDigits 10 n)
  have hgrid :
      Digits.ofGrid n grid =
      ⟨((Nat.toDigits 10 n).reverse.dropWhile (· == '0')).reverse,
        grid + (Nat.toDigits 10 n).length - 1⟩ := rfl
  generalize ((Nat.toDigits 10 n).reverse.dropWhile (· == '0')).reverse =
    ds at hk hgrid
  obtain ⟨c, t, hct, hzero⟩ := toDigits_eq_cons n
  have hc : c ≠ '0' := fun h => hn.ne' (hzero h)
  refine ⟨Nat.ofDigitChars 10 ds 0, k, ds, ?_, ⟨fun d hd => ?_, ?_, rfl⟩, ?_⟩
  · have hvalue := Nat.ofDigitChars_ten_toDigits (n := n)
    rw [← hk, Nat.ofDigitChars_append,
      Nat.ofDigitChars_replicate_zero] at hvalue
    rw [Nat.mul_comm, hvalue]
  · exact toDigits_isDigit d (hk ▸ List.mem_append_left _ hd)
  · rw [hct] at hk
    cases ds with
    | nil =>
        have hzeros : List.replicate k '0' = c :: t := hk
        have hmem : c ∈ List.replicate k '0' := hzeros ▸ List.mem_cons_self
        exact absurd (List.eq_of_mem_replicate hmem) hc
    | cons d rest =>
        obtain ⟨rfl, -⟩ := List.cons.inj hk
        exact ⟨d, rest, rfl, hc⟩
  · have hlength := congrArg List.length hk
    rw [List.length_append, List.length_replicate] at hlength
    rw [hgrid, ← hlength]
    congr 1
    omega

theorem isSome_scale?_of_onGrid? {x : Binary64} {grid : Int} {m k : Nat}
    (hx : 0 < x.numerator) (h : x.onGrid? grid = some (m * 10 ^ k))
    (hpos : 0 < m) (hle : m * 10 ^ k ≤ 10 ^ 17) :
    (scale? m (grid + k)).isSome := by
  have hm : m ≤ 10 ^ 17 :=
    (Nat.le_mul_of_pos_right m (Nat.pow_pos (by decide))).trans hle
  obtain ⟨hread, -⟩ := onGrid?_eq_some h
  rcases Int.lt_or_le (grid + k) 0 with hneg | hnonneg
  · exact isSome_scale?_of_neg (by omega) hneg
  · obtain ⟨e, he⟩ := Int.eq_ofNat_of_zero_le hnonneg
    rw [he]
    refine isSome_scale? hpos hm (lt_overflow_of_ofDecimal? hx hread he) ?_
    rintro rfl rfl
    cases k with
    | zero =>
        obtain rfl : grid = 292 := by omega
        exact onGrid?_of_ofDecimal?_292 hread h
    | succ k =>
        have hten : 10 ^ 1 ≤ 10 ^ (k + 1) :=
          Nat.pow_le_pow_right (by decide) (by omega)
        omega

/-! ## Digits that are read -/

section

variable (negative : Bool) {whole fraction : List Char}

theorem ofDigitChars_lt {ds : List Char} (h : ∀ c ∈ ds, c.isDigit = true) :
    Nat.ofDigitChars 10 ds 0 < 10 ^ ds.length := by
  induction ds with
  | nil => decide
  | cons c ds ih =>
      obtain ⟨hc, hds⟩ := List.forall_mem_cons.mp h
      have hrest := ih hds
      have hdigit : c.toNat - '0'.toNat ≤ 9 := by
        simp only [Char.isDigit, Bool.and_eq_true, decide_eq_true_eq] at hc
        have hnine : c.toNat ≤ 57 := hc.2
        change c.toNat - 48 ≤ 9
        omega
      have hscaled := Nat.mul_le_mul_left (10 ^ ds.length) hdigit
      rw [Nat.ofDigitChars_cons, Nat.mul_zero, Nat.zero_add,
        Nat.ofDigitChars_eq_ofDigitChars_zero, List.length_cons, Nat.pow_succ]
      omega

theorem real?_eq {e : Int}
    (h : Nat.ofDigitChars 10 (whole ++ fraction) 0 < 2 ^ 64) :
    real? negative whole fraction e =
      (scale? (Nat.ofDigitChars 10 (whole ++ fraction) 0)
        (e - fraction.length)).map fun x => .real (signed negative x) := by
  rw [Nat.ofDigitChars_append] at h ⊢
  have hwhole : Nat.ofDigitChars 10 whole 0 < 2 ^ 64 := by
    rw [Nat.ofDigitChars_eq_ofDigitChars_zero] at h
    have hle := Nat.le_mul_of_pos_left (Nat.ofDigitChars 10 whole 0)
      (Nat.pow_pos (n := fraction.length) (show 0 < 10 by decide))
    omega
  rw [real?, absorb_eq hwhole]
  simp only [absorb_eq h, List.length_nil, Nat.sub_zero]
  congr 2
  omega

theorem exists_real? {e : Int}
    (h : Nat.ofDigitChars 10 (whole ++ fraction) 0 < 2 ^ 64)
    (hscale : (scale? (Nat.ofDigitChars 10 (whole ++ fraction) 0)
      (e - fraction.length)).isSome) :
    ∃ y, real? negative whole fraction e = some (.real y) := by
  obtain ⟨y, hy⟩ := Option.isSome_iff_exists.mp hscale
  exact ⟨signed negative y, by rw [real?_eq negative h, hy, Option.map_some]⟩

theorem exists_numberText_fraction (hwhole : IsWhole whole)
    (hfraction : IsFraction fraction)
    (h : Nat.ofDigitChars 10 (whole ++ fraction) 0 < 2 ^ 64) :
    ∃ y, NumberText negative (whole ++ '.' :: fraction) (.real y) := by
  have hlength : 0 < fraction.length := List.length_pos_iff.mpr hfraction.ne_nil
  obtain ⟨y, hy⟩ :=
    exists_real? negative (e := 0) h (isSome_scale?_of_neg h (by omega))
  obtain ⟨c, t, hct, -⟩ := hwhole.head
  refine ⟨y, ⟨c, t ++ '.' :: fraction, by rw [hct, List.cons_append], ?_⟩,
    fun hrest => ?_⟩
  · exact hwhole.digits c (hct ▸ List.mem_cons_self)
  · rw [List.append_assoc, List.cons_append,
      number?_fraction negative hwhole hfraction hrest, hy, Option.map_some]

theorem exists_numberText_exponent {c : Char} (hc : c.isDigit = true)
    (hfraction : ∀ d ∈ fraction, d.isDigit = true) {e : Int}
    (h : Nat.ofDigitChars 10 (c :: fraction) 0 < 2 ^ 64)
    (hscale :
      (scale? (Nat.ofDigitChars 10 (c :: fraction) 0)
        (e - fraction.length)).isSome) :
    ∃ y, NumberText negative (c :: (if fraction.isEmpty then []
      else '.' :: fraction) ++
      'e' :: (if e < 0 then '-' else '+') :: Nat.toDigits 10 e.natAbs)
        (.real y) := by
  have hwhole : IsWhole [c] := ⟨by simpa using hc, c, [], rfl, fun _ => rfl⟩
  obtain ⟨y, hy⟩ : ∃ y, real? negative [c] fraction e = some (.real y) :=
    exists_real? negative h hscale
  refine ⟨y, ⟨c, _, List.cons_append, hc⟩, fun hrest => ?_⟩
  cases fraction with
  | nil =>
      have hread := number?_exponent negative hwhole e hrest
      rw [hy, Option.map_some] at hread
      simpa using hread
  | cons d more =>
      have hread := number?_fraction_exponent negative hwhole
        ⟨hfraction, List.cons_ne_nil d more⟩ e hrest
      rw [hy, Option.map_some] at hread
      simpa using hread

end

/-! ## Texts of digits -/

section

variable (negative : Bool) {d : Digits} {m : Nat}

theorem isDigit_zeros (count : Nat) :
    ∀ c ∈ List.replicate count '0', c.isDigit = true := by
  intro c hc
  rw [List.eq_of_mem_replicate hc]
  decide

theorem Spells.isWhole_append {ds rest : List Char} (h : Spells ds m)
    (hrest : ∀ c ∈ rest, c.isDigit = true) : IsWhole (ds ++ rest) := by
  obtain ⟨c, more, rfl, hc⟩ := h.head
  exact ⟨List.forall_mem_append.mpr ⟨h.digits, hrest⟩, c, more ++ rest, rfl,
    fun hzero => absurd hzero hc⟩

theorem Spells.isWhole_take {ds : List Char} (h : Spells ds m) (count : Nat) :
    IsWhole (ds.take (count + 1)) := by
  obtain ⟨c, more, rfl, hc⟩ := h.head
  exact ⟨fun d hd => h.digits d (List.mem_of_mem_take hd), c, more.take count,
    rfl, fun hzero => absurd hzero hc⟩

theorem exists_numberText_positional (h : Spells d.digits m) (hm : m ≤ 10 ^ 17)
    (hexponent : d.exponent ≤ 15) :
    ∃ y, NumberText negative d.positional (.real y) := by
  have hm64 : m < 2 ^ 64 := hm.trans_lt (by decide)
  unfold Digits.positional
  dsimp only
  split
  · have hne : List.replicate ((-d.exponent).toNat - 1) '0' ++ d.digits ≠
        [] := by
      obtain ⟨c, more, hds, -⟩ := h.head
      simp [hds]
    have hfraction := List.forall_mem_append.mpr
      ⟨isDigit_zeros ((-d.exponent).toNat - 1), h.digits⟩
    refine exists_numberText_fraction negative isWhole_zero ⟨hfraction, hne⟩ ?_
    simpa [Nat.ofDigitChars_cons, Nat.ofDigitChars_append, h.value] using hm64
  · split
    · next hlength =>
        -- sixteen digits at most stand before the point, and a zero behind it
        have hwhole :=
          h.isWhole_append
            (isDigit_zeros (d.exponent.toNat + 1 - d.digits.length))
        have hlt :=
          ofDigitChars_lt
            (List.forall_mem_append.mpr ⟨hwhole.digits, isDigit_zeros 1⟩)
        have hlength17 :
            (d.digits ++
              List.replicate (d.exponent.toNat + 1 - d.digits.length) '0' ++
            List.replicate 1 '0').length ≤ 17 := by
          simp only [List.length_append, List.length_replicate]
          omega
        have hle := Nat.pow_le_pow_right (show 0 < 10 by decide) hlength17
        exact exists_numberText_fraction negative hwhole ⟨isDigit_zeros 1,
          by decide⟩
          (hlt.trans_le (hle.trans (by decide)))
    · next hlength =>
        have hfraction : IsFraction (d.digits.drop (d.exponent.toNat + 1)) :=
          ⟨fun c hc => h.digits c (List.mem_of_mem_drop hc),
            by simpa using hlength⟩
        refine exists_numberText_fraction negative (h.isWhole_take _) hfraction
          ?_
        rwa [List.take_append_drop, h.value]

theorem exists_numberText_scientific (h : Spells d.digits m) (hm : m ≤ 10 ^ 17)
    (hscale : (scale? m (d.exponent - (d.digits.length - 1 : Nat))).isSome) :
    ∃ y, NumberText negative d.scientific (.real y) := by
  obtain ⟨c, more, hds, -⟩ := h.head
  obtain ⟨hc, hmore⟩ := List.forall_mem_cons.mp (hds ▸ h.digits)
  have hvalue : Nat.ofDigitChars 10 (c :: more) 0 = m := hds ▸ h.value
  rw [hds] at hscale
  unfold Digits.scientific
  rw [hds]
  refine exists_numberText_exponent negative hc hmore ?_ ?_ <;> rw [hvalue]
  · exact hm.trans_lt (by decide)
  · exact hscale

end

/-! ## Texts of numbers -/

section

variable (negative : Bool) {x : Binary64}

theorem exists_numberText_zero :
    ∃ y, NumberText negative ['0', '.', '0'] (.real y) :=
  exists_numberText_fraction negative isWhole_zero ⟨isDigit_zeros 1, by decide⟩
    (by decide)

theorem onGrid?_ne_zero (hx : 0 < x.numerator) (grid : Int) :
    x.onGrid? grid ≠ some 0 := by
  intro h
  obtain ⟨hread, -⟩ := onGrid?_eq_some h
  rw [ofDecimal?, if_pos rfl, Option.some.injEq] at hread
  rw [← hread, numerator, zero, Nat.zero_mul] at hx
  exact Nat.lt_irrefl 0 hx

theorem exists_numberText_shortest (hx : 0 < x.numerator) :
    ∃ y, NumberText negative (x.shortest.text layout) (.real y) := by
  obtain ⟨n, grid, hshortest, ⟨rfl, rfl⟩ | ⟨k, hk, rfl, hgrid⟩⟩ :=
    exists_shortest x
  · have htext : (Digits.ofGrid 0 0).text layout = ['0', '.', '0'] := by decide
    rw [hshortest, htext]
    exact exists_numberText_zero negative
  · have hn : 0 < n := Nat.pos_of_ne_zero fun hzero =>
      onGrid?_ne_zero hx _ (hzero ▸ hgrid)
    have hn17 : n ≤ 10 ^ 17 :=
      (onGrid?_le hx hgrid).trans (Nat.pow_le_pow_right (by decide) (by omega))
    obtain ⟨m, zeros, ds, rfl, hspells, hdigits⟩ := exists_spells hn
      (decade x.numerator x.denominator - k)
    have hm : 0 < m := Nat.pos_of_mul_pos_right hn
    have hm17 : m ≤ 10 ^ 17 :=
      (Nat.le_mul_of_pos_right m (Nat.pow_pos (by decide))).trans hn17
    have hscale := isSome_scale?_of_onGrid? hx hgrid hm hn17
    rw [hshortest, hdigits, Digits.text]
    split
    · next hrange =>
        exact exists_numberText_positional negative hspells hm17 hrange.2
    · refine exists_numberText_scientific negative hspells hm17 ?_
      have hlength : 0 < ds.length := by
        obtain ⟨c, rest, rfl, -⟩ := hspells.head
        exact Nat.succ_pos _
      have hexponent :
          decade x.numerator x.denominator - k + zeros + ds.length - 1 -
          (ds.length - 1 : Nat) = decade x.numerator x.denominator - k +
            zeros := by omega
      dsimp only
      rwa [hexponent]

end

theorem exists_written_text (x : Binary64) :
    ∃ y, Written (.real y) (x.text layout) := by
  have hmagnitude (negative : Bool) :
      ∃ y, NumberText negative (if x.isZero then ['0', '.', '0'] else
        ({ x with negative := false }).shortest.text layout) (.real y) := by
    split
    · exact exists_numberText_zero negative
    · next hx =>
        refine exists_numberText_shortest negative ?_
        exact Nat.mul_pos (Nat.pos_of_ne_zero (by simpa [isZero] using hx))
          (Nat.two_pow_pos _)
  obtain ⟨y, hy⟩ := hmagnitude x.negative
  unfold Binary64.text
  dsimp only
  split
  · next hnegative => exact ⟨y, .minus (hnegative ▸ hy)⟩
  · next hnegative =>
      exact ⟨y, .number ((Bool.eq_false_of_not_eq_true hnegative) ▸ hy)⟩

end Workflows.Json
