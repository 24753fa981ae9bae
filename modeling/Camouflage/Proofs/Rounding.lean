import Camouflage.Binary.Decimal
import Camouflage.Proofs.Whole

/-!
# Rounding once and twice

A quotient is rounded by at most half of the spacing around it, and anything closer than a
quarter of the spacing to a number is rounded to that number. Between two formats of which
one is finer by two bits, half of the spacing of the one is less than a quarter of the
spacing of the other. So where the finer format rounds to a number of the coarser one, the
coarser format rounds to it too, and nothing is lost by rounding twice
(`Binary.narrows_ofNumeral`).
-/

namespace Camouflage

/-! ## Quotients -/

theorem le_roundQuotient (num den : Nat) : num / den ≤ roundQuotient num den := by
  unfold roundQuotient
  dsimp only
  split <;> omega

/-- A quotient is rounded by at most one half. -/
theorem roundQuotient_error (num : Nat) {den : Nat} (hden : 0 < den) :
    2 * num ≤ 2 * (roundQuotient num den * den) + den ∧
      2 * (roundQuotient num den * den) ≤ 2 * num + den := by
  have hdivision := Nat.div_add_mod num den
  have hmod := Nat.mod_lt num hden
  have hcomm := Nat.mul_comm den (num / den)
  have hsucc := Nat.add_one_mul (num / den) den
  unfold roundQuotient
  dsimp only
  split <;> omega

/-- What is closer to a whole number than one half is rounded to it. -/
theorem roundQuotient_eq_of_close {num den n : Nat} (hlow : 2 * (n * den) < 2 * num + den)
    (hhigh : 2 * num < 2 * (n * den) + den) : roundQuotient num den = n := by
  have hden : 0 < den := by omega
  obtain ⟨hbelow, habove⟩ := roundQuotient_error num hden
  -- another whole number would differ by a whole denominator
  rcases Nat.lt_trichotomy (roundQuotient num den) n with hlt | heq | hgt
  · have hnext := Nat.mul_le_mul_right den hlt
    rw [Nat.succ_mul] at hnext
    omega
  · exact heq
  · have hnext := Nat.mul_le_mul_right den hgt
    rw [Nat.succ_mul] at hnext
    omega

namespace Format

variable {f g : Format} {num den units : Nat}

/-! ## Spacing -/

theorem shift_le_of_lt {k : Nat} (h : units < 2 ^ k) : f.shift units ≤ k - f.precision := by
  have hpos := f.precision_pos
  unfold shift
  by_cases hzero : units = 0
  · rw [hzero, Nat.log2_zero]
    omega
  · have hlog := (Nat.log2_lt hzero).2 h
    omega

theorem le_shift_of_le {k : Nat} (h : 2 ^ k ≤ units) : k + 1 - f.precision ≤ f.shift units := by
  have hne : units ≠ 0 := by
    have := Nat.two_pow_pos k
    omega
  have hlog := (Nat.le_log2 hne).2 h
  unfold shift
  omega

theorem Fits.spacing_dvd (h : f.Fits units) : f.spacing units ∣ units :=
  Nat.dvd_of_mod_eq_zero h.2

/-- The next number is still in the range of the same spacing, or at its end. -/
theorem Fits.add_spacing_le (h : f.Fits units) :
    units + f.spacing units ≤ 2 ^ (units.log2 + 1) := by
  have hpos := f.precision_pos
  have hend : f.spacing units ∣ 2 ^ (units.log2 + 1) :=
    Nat.pow_dvd_pow 2 (by unfold shift; omega)
  obtain ⟨m, hm⟩ := h.spacing_dvd
  obtain ⟨n, hn⟩ := hend
  have hlt : units < 2 ^ (units.log2 + 1) := Nat.lt_log2_self
  have hnext : m + 1 ≤ n := by
    refine Nat.lt_of_mul_lt_mul_left (a := f.spacing units) ?_
    rwa [← hm, ← hn]
  calc units + f.spacing units = f.spacing units * (m + 1) := by rw [Nat.mul_succ, ← hm]
    _ ≤ f.spacing units * n := Nat.mul_le_mul_left _ hnext
    _ = 2 ^ (units.log2 + 1) := hn.symm

/-! ## Rounding -/

/-- Rounding to nearest is off by at most half of the spacing. -/
theorem nearest_error (f : Format) (num : Nat) (hden : 0 < den) :
    2 * num ≤ 2 * (f.nearest num den * den) + den * f.spacing (num / den) ∧
      2 * (f.nearest num den * den) ≤ 2 * num + den * f.spacing (num / den) := by
  have herror := roundQuotient_error num (Nat.mul_pos hden (f.spacing_pos (num / den)))
  have hnearest : f.nearest num den * den =
      roundQuotient num (den * f.spacing (num / den)) * (den * f.spacing (num / den)) := by
    rw [nearest, Nat.mul_assoc, Nat.mul_comm (f.spacing _) den]
  rwa [hnearest]

/-- Rounding does not go below a power of two. -/
theorem two_pow_le_nearest {k : Nat} (h : 2 ^ k ≤ num / den) : 2 ^ k ≤ f.nearest num den := by
  have hpos := f.precision_pos
  have hne : num / den ≠ 0 := by
    have := Nat.two_pow_pos k
    omega
  have hk := (Nat.le_log2 hne).2 h
  have hlow := Nat.log2_self_le hne
  have hdvd : f.spacing (num / den) ∣ 2 ^ (num / den).log2 :=
    Nat.pow_dvd_pow 2 (by unfold shift; omega)
  calc 2 ^ k ≤ 2 ^ (num / den).log2 := Nat.pow_le_pow_right (by omega) hk
    _ = 2 ^ (num / den).log2 / f.spacing (num / den) * f.spacing (num / den) :=
        (Nat.div_mul_cancel hdvd).symm
    _ ≤ num / den / f.spacing (num / den) * f.spacing (num / den) :=
        Nat.mul_le_mul_right _ (Nat.div_le_div_right hlow)
    _ ≤ f.nearest num den := by
        rw [Nat.div_div_eq_div_mul]
        exact Nat.mul_le_mul_right _ (le_roundQuotient ..)

/-- Around what is this close to a number the spacing is at least half of what it is around
the number: below a power of two it is half of what it is above. -/
theorem shift_le_of_close (hden : 0 < den)
    (h : 4 * (units * den) < 4 * num + den * f.spacing units) :
    f.shift units ≤ f.shift (num / den) + 1 := by
  have hpos := f.precision_pos
  by_cases hsmall : f.shift units ≤ 1
  · omega
  -- the number is at least `2 ^ (k + 1)`, and half of its spacing at most `2 ^ k`
  obtain ⟨k, hk⟩ : ∃ k, units.log2 = k + 1 :=
    Nat.exists_eq_add_one.2 (by unfold shift at hsmall; omega)
  have hne : units ≠ 0 := by
    rintro rfl
    rw [Nat.log2_zero] at hk
    omega
  have hshift : f.shift units = k + 2 - f.precision := by rw [shift, hk]
  have hunits : 2 ^ (k + 1) ≤ units := hk ▸ Nat.log2_self_le hne
  have hspacing : f.spacing units ≤ 2 ^ (k + 1) := Nat.pow_le_pow_right (by omega) (by omega)
  have hquotient : 2 ^ k ≤ num / den := by
    rw [Nat.le_div_iff_mul_le hden]
    have hlarge := Nat.mul_le_mul_right den hunits
    have hclose := Nat.mul_le_mul_left den hspacing
    rw [Nat.pow_succ'] at hlarge hclose
    rw [Nat.mul_assoc] at hlarge
    rw [Nat.mul_left_comm, Nat.mul_comm den (2 ^ k)] at hclose
    omega
  have := le_shift_of_le (f := f) hquotient
  omega

/-- What is closer to a number than a quarter of its spacing is rounded to it. -/
theorem nearest_eq_of_close (hfits : f.Fits units)
    (hlow : 4 * (units * den) < 4 * num + den * f.spacing units)
    (hhigh : 4 * num < 4 * (units * den) + den * f.spacing units) :
    f.nearest num den = units := by
  have hden : 0 < den := by
    refine Nat.pos_of_ne_zero fun hzero => ?_
    rw [hzero] at hlow hhigh
    omega
  -- the spacing around the quotient divides the number, and is at least half of its own
  have hupper : f.shift (num / den) ≤ f.shift units := by
    refine shift_le_of_lt (Nat.lt_of_lt_of_le ?_ hfits.add_spacing_le)
    rw [Nat.div_lt_iff_lt_mul hden, Nat.add_mul, Nat.mul_comm (f.spacing units)]
    omega
  have hlower := shift_le_of_close hden hlow
  have hdvd : f.spacing (num / den) ∣ units :=
    Nat.dvd_trans (Nat.pow_dvd_pow 2 hupper) hfits.spacing_dvd
  have hspacing : f.spacing units ≤ 2 * f.spacing (num / den) := by
    rw [spacing_eq_two_pow, spacing_eq_two_pow, ← Nat.pow_succ']
    exact Nat.pow_le_pow_right (by omega) hlower
  have hscaled : units / f.spacing (num / den) * (den * f.spacing (num / den)) = units * den := by
    rw [Nat.mul_comm den, ← Nat.mul_assoc, Nat.div_mul_cancel hdvd]
  have hclose := Nat.mul_le_mul_left den hspacing
  rw [Nat.mul_left_comm] at hclose
  have hround : roundQuotient num (den * f.spacing (num / den)) = units / f.spacing (num / den) :=
    roundQuotient_eq_of_close (by omega) (by omega)
  rw [nearest, hround, Nat.div_mul_cancel hdvd]

/-! ## Finer formats -/

/-- Whether a format has all the numbers of another, and between them at least three more,
also next to zero. -/
structure FinelyWithin (f g : Format) : Prop extends Within f g where
  precision_add_two_le : f.precision + 2 ≤ g.precision
  fractionBits_add_two_le : f.fractionBits + 2 ≤ g.fractionBits

theorem single_finelyWithin_double : FinelyWithin single double :=
  ⟨single_within_double, by decide, by decide⟩

/-- Where the finer format rounds to a number of the coarser one, twice its spacing is less
than the spacing of the coarser format. -/
theorem FinelyWithin.spacing_lt (h : f.FinelyWithin g)
    (hfiner : g.nearest num den = units * f.unitsOf g) :
    2 * g.spacing (num / den) < f.unitsOf g * f.spacing units := by
  have hprecision := h.precision_add_two_le
  have hbits := h.fractionBits_add_two_le
  have hbelow : num / den < 2 ^ (units.log2 + 1 + (g.fractionBits - f.fractionBits)) := by
    refine Nat.lt_of_not_le fun hnot => ?_
    have hle := two_pow_le_nearest (f := g) hnot
    rw [hfiner, unitsOf, Nat.pow_add] at hle
    have hlt : units < 2 ^ (units.log2 + 1) := Nat.lt_log2_self
    exact absurd (Nat.le_of_mul_le_mul_right hle (Nat.two_pow_pos _)) (Nat.not_le.2 hlt)
  have hshift := shift_le_of_lt (f := g) hbelow
  have hunits : f.shift units = units.log2 + 1 - f.precision := rfl
  rw [spacing_eq_two_pow, spacing_eq_two_pow, unitsOf, ← Nat.pow_add, ← Nat.pow_succ']
  exact Nat.pow_lt_pow_right (by omega) (by omega)

/-- A quotient that a finer format rounds to a number of the coarser one is rounded to it by
the coarser one, too. -/
theorem FinelyWithin.nearest_eq (h : f.FinelyWithin g) (hden : 0 < den) (hfits : f.Fits units)
    (hfiner : g.nearest (num * f.unitsOf g) den = units * f.unitsOf g) :
    f.nearest num den = units := by
  have hspacing := Nat.mul_lt_mul_of_pos_left (h.spacing_lt hfiner) hden
  obtain ⟨hbelow, habove⟩ := nearest_error g (num * f.unitsOf g) hden
  rw [hfiner] at hbelow habove
  -- in units of the finer format, the error is at most half of its spacing
  have hunits : units * f.unitsOf g * den = units * den * f.unitsOf g := Nat.mul_right_comm ..
  have hquarter : den * (f.unitsOf g * f.spacing units) = den * f.spacing units * f.unitsOf g := by
    rw [Nat.mul_comm (f.unitsOf g), Nat.mul_assoc]
  rw [hunits] at hbelow habove
  rw [hquarter, Nat.mul_left_comm] at hspacing
  refine nearest_eq_of_close hfits ?_ ?_
  · refine Nat.lt_of_mul_lt_mul_right (a := f.unitsOf g) ?_
    rw [Nat.add_mul, Nat.mul_assoc 4, Nat.mul_assoc 4]
    omega
  · refine Nat.lt_of_mul_lt_mul_right (a := f.unitsOf g) ?_
    rw [Nat.add_mul, Nat.mul_assoc 4, Nat.mul_assoc 4]
    omega

end Format

/-! ## Decimals -/

namespace Binary

variable {f g : Format} {negative : Bool}

theorem of_ofQuotient_eq_finite {sign : Bool} {num den units : Nat} {hfits : f.Fits units}
    (h : (ofQuotient negative num den : Binary f) = finite sign units hfits) :
    negative = sign ∧ f.nearest num den = units := by
  unfold ofQuotient ofUnits at h
  split at h
  · obtain ⟨hsign, hunits⟩ := finite.inj h
    exact ⟨hsign, hunits⟩
  · cases h

theorem ofQuotient_eq_zero {num den : Nat} (h : 4 * num < den) :
    (ofQuotient negative num den : Binary f) = zero negative := by
  have hspacing := Nat.le_mul_of_pos_right den (f.spacing_pos 0)
  have hnearest : f.nearest num den = 0 :=
    Format.nearest_eq_of_close f.fits_zero (by omega) (by omega)
  rw [ofQuotient, hnearest, ofUnits_of_fits f.fits_zero, zero]

theorem ofQuotient_eq_infinite {num den : Nat} (h : f.bound ≤ num / den) :
    (ofQuotient negative num den : Binary f) = infinite negative := by
  have hle : f.bound ≤ f.nearest num den := Format.two_pow_le_nearest h
  exact dif_neg fun hfits => Nat.not_le.2 hfits.1 hle

/-- The powers of ten that are not computed do not change the number of a decimal. -/
theorem ofDecimal_eq_ofQuotient (negative : Bool) (digits : Nat) (exponent : Int) :
    (ofDecimal negative digits exponent : Binary f) =
      ofQuotient negative (digits * 10 ^ exponent.toNat * f.one) (10 ^ (-exponent).toNat) := by
  have hpow : ∀ {low high : Nat}, low ≤ high → 2 ^ low ≤ 10 ^ high := fun {low high} hle =>
    Nat.le_trans (Nat.pow_le_pow_right (by omega) hle) (Nat.pow_le_pow_left (by omega) high)
  unfold ofDecimal
  split
  · rename_i hdigits
    rw [hdigits, Nat.zero_mul, Nat.zero_mul]
    exact (ofQuotient_eq_zero (Nat.pos_of_ne_zero (by simp))).symm
  · rename_i hdigits
    split
    · rename_i hlarge
      refine (ofQuotient_eq_infinite ?_).symm
      have hone : (-exponent).toNat = 0 := by omega
      have hbound : f.bound ≤ 10 ^ exponent.toNat := hpow (by omega)
      rw [hone, Nat.pow_zero, Nat.div_one]
      exact Nat.le_trans hbound (Nat.le_trans (Nat.le_mul_of_pos_left _ (Nat.pos_of_ne_zero hdigits))
        (Nat.le_mul_of_pos_right _ f.one_pos))
    · split
      · rename_i hsmall
        refine (ofQuotient_eq_zero ?_).symm
        have hnone : exponent.toNat = 0 := by omega
        have hdigits : digits < 2 ^ (digits.log2 + 1) := Nat.lt_log2_self
        rw [hnone, Nat.pow_zero, Nat.mul_one]
        calc 4 * (digits * f.one) < 4 * (2 ^ (digits.log2 + 1) * f.one) :=
              Nat.mul_lt_mul_of_pos_left (Nat.mul_lt_mul_of_pos_right hdigits f.one_pos) (by omega)
          _ = 2 ^ (2 + (digits.log2 + 1 + f.fractionBits)) := by
              rw [Nat.pow_add 2 2, Nat.pow_add 2 (digits.log2 + 1), Format.one_eq_two_pow]
          _ ≤ 10 ^ (-exponent).toNat := hpow (by omega)
      · rfl

/-! ## Numbers of two formats -/

/-- Whether a number is what another one of a finer format is, if that is a number of the
coarser format at all. -/
def Narrows (y : Binary f) (x : Binary g) : Prop :=
  ∀ sign units (h : f.Fits units) (h' : g.Fits (units * f.unitsOf g)),
    x = finite sign (units * f.unitsOf g) h' → y = finite sign units h

theorem narrows_ofQuotient (h : f.FinelyWithin g) (negative : Bool) (num : Nat) {den : Nat}
    (hden : 0 < den) :
    (ofQuotient negative num den : Binary f).Narrows
      (ofQuotient negative (num * f.unitsOf g) den : Binary g) := by
  intro sign units hfits hfits' heq
  obtain ⟨rfl, hnearest⟩ := of_ofQuotient_eq_finite heq
  rw [ofQuotient, h.nearest_eq hden hfits hnearest, ofUnits_of_fits hfits]

/-- A decimal that rounds to a number of the coarser format rounds to it there, too. -/
theorem narrows_ofNumeral (h : f.FinelyWithin g) (decimal : Numeral.Decimal) :
    (ofNumeral decimal : Binary f).Narrows (ofNumeral decimal : Binary g) := by
  cases decimal with
  | nan =>
    intro _ _ _ _ heq
    cases heq
  | infinite negative =>
    intro _ _ _ _ heq
    cases heq
  | finite negative digits exponent =>
    have hone : digits * 10 ^ exponent.toNat * g.one =
        digits * 10 ^ exponent.toNat * f.one * f.unitsOf g := by
      rw [h.one_eq, Nat.mul_comm (f.unitsOf g), Nat.mul_assoc _ f.one]
    simp only [ofNumeral]
    rw [ofDecimal_eq_ofQuotient, ofDecimal_eq_ofQuotient, hone]
    exact narrows_ofQuotient h negative _ (Nat.pos_of_ne_zero (by simp))

theorem narrows_convert (h : f.Within g) (x : Binary g) : (x.convert f).Narrows x := by
  rintro sign units hfits hfits' rfl
  show ofQuotient sign (units * f.unitsOf g * f.one) g.one = _
  rw [Nat.mul_assoc, ← h.one_eq]
  exact ofQuotient_mul_of_fits hfits g.one_pos

protected theorem neg_neg (x : Binary f) : - -x = x := by
  cases x with
  | nan => rfl
  | infinite negative => exact congrArg infinite (Bool.not_not negative)
  | finite negative units h => exact congrArg (finite · units h) (Bool.not_not negative)

theorem Narrows.neg {x : Binary g} {y : Binary f} (h : y.Narrows x) : (-y).Narrows (-x) := by
  intro sign units hfits hfits' heq
  have hx : x = finite (!sign) (units * f.unitsOf g) hfits' := by
    rw [← x.neg_neg, heq]
    rfl
  rw [h _ _ hfits hfits' hx]
  exact congrArg (finite · units hfits) (Bool.not_not sign)

/-- Whole numbers within the precision of the coarser format are numbers of both. -/
theorem Narrows.of_whole {x : Binary g} {y : Binary f} (h : y.Narrows x) (hwithin : f.Within g)
    (hf : f.Spacious) {n : Nat} (hn : n ≤ 2 ^ f.precision) {sign : Bool}
    {hfits : g.Fits (n * g.one)} (hx : x = finite sign (n * g.one) hfits) :
    y = finite sign (n * f.one) (hf.fits hn) := by
  have hone : n * g.one = n * f.one * f.unitsOf g := by
    rw [hwithin.one_eq, Nat.mul_comm (f.unitsOf g), Nat.mul_assoc]
  refine h sign (n * f.one) (hf.fits hn) (hwithin.fits (hf.fits hn)) ?_
  rw [hx]
  exact finite_congr hone

end Binary

end Camouflage
