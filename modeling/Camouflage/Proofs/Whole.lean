import Camouflage.Binary.Arithmetic
import Mathlib.Algebra.Group.Nat.Defs

/-!
# Whole numbers are exact

A magnitude fits a format if it is a significand of at most so many bits, shifted
(`Format.fits_of_scaled`). Up to two to the power of the precision every whole number is
one of the format, and a sum, difference or product that stays up to there is not
rounded. The results carry a positive sign, also where they are zero.
-/

namespace Camouflage

theorem log2_mul_two_pow {n : Nat} (hn : n ≠ 0) (k : Nat) : (n * 2 ^ k).log2 = n.log2 + k := by
  have hne : n * 2 ^ k ≠ 0 := Nat.mul_ne_zero hn (Nat.ne_of_gt (Nat.two_pow_pos k))
  rw [Nat.log2_eq_iff hne]
  constructor
  · rw [Nat.pow_add]
    exact Nat.mul_le_mul_right _ (Nat.log2_self_le hn)
  · rw [Nat.add_right_comm, Nat.pow_add]
    exact Nat.mul_lt_mul_of_pos_right Nat.lt_log2_self (Nat.two_pow_pos k)

namespace Format

variable {f : Format}

theorem one_eq_two_pow : f.one = 2 ^ f.fractionBits := rfl

theorem spacing_eq_two_pow (units : Nat) : f.spacing units = 2 ^ f.shift units := rfl

/-- A significand of at most the precision's bits, shifted, fits if it is within range.
The least significand of one bit more is a power of two and fits too. -/
theorem fits_of_scaled {n k : Nat} (hn : n ≤ 2 ^ f.precision) (hbound : n * 2 ^ k < f.bound) :
    f.Fits (n * 2 ^ k) := by
  refine ⟨hbound, Nat.mod_eq_zero_of_dvd ?_⟩
  by_cases hzero : n = 0
  · simp [hzero]
  rw [spacing_eq_two_pow, shift, log2_mul_two_pow hzero]
  rcases Nat.lt_or_eq_of_le hn with hlt | rfl
  -- the grid is no coarser than the shift, as the significand has few enough bits
  · have hlog : n.log2 < f.precision := (Nat.log2_lt hzero).2 hlt
    exact Nat.dvd_mul_left_of_dvd (Nat.pow_dvd_pow 2 (by omega)) n
  · have hpos := f.precision_pos
    rw [Nat.log2_two_pow, ← Nat.pow_add]
    exact Nat.pow_dvd_pow 2 (by omega)

/-- What fits is a significand of the precision's bits, shifted. -/
theorem Fits.exists_scaled {units : Nat} (h : f.Fits units) :
    ∃ n < 2 ^ f.precision, units = n * 2 ^ f.shift units := by
  refine ⟨units / 2 ^ f.shift units, ?_, (Nat.div_mul_cancel (Nat.dvd_of_mod_eq_zero h.2)).symm⟩
  rw [Nat.div_lt_iff_lt_mul (Nat.two_pow_pos _), ← Nat.pow_add]
  exact Nat.lt_of_lt_of_le Nat.lt_log2_self (Nat.pow_le_pow_right (by omega) (by rw [shift]; omega))

/-- Whether the whole numbers of all significant bits lie within the range. -/
def Spacious (f : Format) : Prop := f.fractionBits < f.maxShift

instance : Decidable f.Spacious := inferInstanceAs (Decidable (_ < _))

theorem single_spacious : single.Spacious := by decide

theorem double_spacious : double.Spacious := by decide

/-- Whole numbers up to two to the power of the precision fit. -/
theorem Spacious.fits (hf : f.Spacious) {n : Nat} (hn : n ≤ 2 ^ f.precision) :
    f.Fits (n * f.one) := by
  refine fits_of_scaled hn ?_
  calc n * 2 ^ f.fractionBits
      ≤ 2 ^ f.precision * 2 ^ f.fractionBits := Nat.mul_le_mul_right _ hn
    _ = 2 ^ (f.precision + f.fractionBits) := (Nat.pow_add ..).symm
    _ < f.bound := Nat.pow_lt_pow_right (by omega) (Nat.add_lt_add_left hf _)

/-! ## Wider formats -/

/-- Whether one format has all the numbers of another. -/
structure Within (f g : Format) : Prop where
  precision_le : f.precision ≤ g.precision
  fractionBits_le : f.fractionBits ≤ g.fractionBits
  range_le : f.precision + f.maxShift + (g.fractionBits - f.fractionBits) ≤ g.precision + g.maxShift

theorem single_within_double : Within single double := ⟨by decide, by decide, by decide⟩

/-- The number of units of the finer format that make one of the coarser. -/
def unitsOf (f g : Format) : Nat := 2 ^ (g.fractionBits - f.fractionBits)

theorem unitsOf_pos (f g : Format) : 0 < f.unitsOf g := Nat.two_pow_pos _

variable {g : Format}

theorem Within.one_eq (h : f.Within g) : g.one = f.unitsOf g * f.one := by
  rw [one_eq_two_pow, one_eq_two_pow, unitsOf, ← Nat.pow_add, Nat.sub_add_cancel h.fractionBits_le]

theorem Within.fits (h : f.Within g) {units : Nat} (hunits : f.Fits units) :
    g.Fits (units * f.unitsOf g) := by
  obtain ⟨n, hn, hscaled⟩ := hunits.exists_scaled
  have hwide : 2 ^ f.precision ≤ 2 ^ g.precision := Nat.pow_le_pow_right (by omega) h.precision_le
  have hbound : units * f.unitsOf g < g.bound :=
    calc units * f.unitsOf g
        < f.bound * f.unitsOf g := Nat.mul_lt_mul_of_pos_right hunits.1 (Nat.two_pow_pos _)
      _ = 2 ^ (f.precision + f.maxShift + (g.fractionBits - f.fractionBits)) :=
          (Nat.pow_add ..).symm
      _ ≤ g.bound := Nat.pow_le_pow_right (by omega) h.range_le
  have hshifted : units * f.unitsOf g =
      n * 2 ^ (f.shift units + (g.fractionBits - f.fractionBits)) := by
    rw [Nat.pow_add, ← Nat.mul_assoc, ← hscaled, unitsOf]
  rw [hshifted] at hbound ⊢
  exact fits_of_scaled (Nat.le_of_lt (Nat.lt_of_lt_of_le hn hwide)) hbound

end Format

namespace Binary

variable {f : Format}

/-- A whole number in range is itself, with a positive sign. -/
theorem ofNat_eq (hf : f.Spacious) {n : Nat} (hn : n ≤ 2 ^ f.precision) :
    (ofNat n : Binary f) = finite false (n * f.one) (hf.fits hn) :=
  ofQuotient_of_fits _

/-- The integer part of a whole number in range is the number itself. -/
theorem toIntClamped_ofNat (hf : f.Spacious) {n : Nat} (hn : n ≤ 2 ^ f.precision) {low high : Int}
    (hlow : low ≤ n) (hhigh : n ≤ high) : (ofNat n : Binary f).toIntClamped low high = n := by
  rw [ofNat_eq hf hn]
  simp only [toIntClamped, Nat.mul_div_cancel _ f.one_pos, signed, Bool.false_eq_true, if_false]
  omega

/-- A whole number in range is whole in any format that holds it. -/
theorem convert_ofNat {g : Format} (hf : f.Spacious) {n : Nat} (hn : n ≤ 2 ^ f.precision) :
    (ofNat n : Binary f).convert g = ofNat n := by
  rw [ofNat_eq hf hn]
  show ofQuotient false (n * f.one * g.one) f.one = ofQuotient false (n * g.one) 1
  rw [Nat.mul_right_comm, ofQuotient, ofQuotient, Format.nearest_mul_mul g _ f.one_pos]

/-- A number keeps its value in a format that has it. -/
theorem convert_of_within {g : Format} (h : f.Within g) {negative : Bool} {units : Nat} (hunits : f.Fits units) :
    (finite negative units hunits).convert g =
      finite negative (units * f.unitsOf g) (h.fits hunits) := by
  show ofQuotient negative (units * g.one) f.one = _
  rw [h.one_eq, ← Nat.mul_assoc]
  exact ofQuotient_mul_of_fits _ f.one_pos

theorem ofInt_natCast (n : Nat) : (ofInt n : Binary f) = ofNat n := by
  have hsign : ¬ (n : Int) < 0 := by omega
  simp [ofInt, ofNat, hsign]

/-- Finite numbers with the same sign and magnitude are the same. -/
theorem finite_congr {negative : Bool} {m n : Nat} {hm : f.Fits m} {hn : f.Fits n} (h : m = n) :
    (finite negative m hm : Binary f) = finite negative n hn := by
  subst h
  rfl

/-- How a sum that is not negative is rounded if it need not be: a zero is positive. -/
theorem ofQuotient_natCast {units : Nat} (h : f.Fits units) :
    (if (units : Int) = 0 then zero false
      else ofQuotient ((units : Int) < 0) (units : Int).natAbs 1 : Binary f) =
      finite false units h := by
  have hsign : ¬ (units : Int) < 0 := by omega
  split
  · exact finite_congr (by omega)
  · simp only [hsign, decide_false, Int.natAbs_natCast]
    exact ofQuotient_of_fits h

/-- A whole number written with zeros behind its point is that number. -/
theorem ofDecimal_shifted (n places : Nat) :
    (ofDecimal false (n * 10 ^ places) (-places) : Binary f) = ofNat n := by
  by_cases hzero : n = 0
  · subst hzero
    rw [Nat.zero_mul, ofDecimal, if_pos rfl, ofNat, Nat.zero_mul, ofQuotient_of_fits f.fits_zero]
    rfl
  have hpow : 0 < 10 ^ places := Nat.pos_of_ne_zero (by simp)
  have hne : n * 10 ^ places ≠ 0 := Nat.mul_ne_zero hzero (Nat.ne_of_gt hpow)
  have hlog : places ≤ (n * 10 ^ places).log2 := by
    refine (Nat.le_log2 hne).2 ?_
    calc 2 ^ places ≤ 10 ^ places := Nat.pow_le_pow_left (by omega) _
      _ ≤ n * 10 ^ places := Nat.le_mul_of_pos_left _ (Nat.pos_of_ne_zero hzero)
  -- neither case of a decimal out of range applies, the second because of its many digits
  rw [ofDecimal, if_neg hne, if_neg (by omega), if_neg (by omega)]
  have hexp : (-(-(places : Int))).toNat = places := by omega
  have hnone : (-(places : Int)).toNat = 0 := by omega
  rw [hexp, hnone, Nat.pow_eq, Nat.pow_eq, Nat.pow_zero, Nat.mul_one, Nat.mul_right_comm, ofQuotient, ofNat, ofQuotient,
    Format.nearest_mul_mul f _ hpow]

variable {a b : Nat}

theorem ofNat_add (hf : f.Spacious) (h : a + b ≤ 2 ^ f.precision) :
    (ofNat a + ofNat b : Binary f) = ofNat (a + b) := by
  have hsum : signed false (a * f.one) + signed false (b * f.one) = ((a + b) * f.one : Nat) := by
    simp [signed, Int.add_mul]
  rw [ofNat_eq hf (n := a) (by omega), ofNat_eq hf (n := b) (by omega), ofNat_eq hf h]
  show add _ _ = _
  simp only [add, hsum, Bool.and_self]
  exact ofQuotient_natCast _

theorem ofNat_sub (hf : f.Spacious) (hb : b ≤ a) (ha : a ≤ 2 ^ f.precision) :
    (ofNat a - ofNat b : Binary f) = ofNat (a - b) := by
  have hsum : signed false (a * f.one) + signed (!false) (b * f.one) =
      ((a - b) * f.one : Nat) := by
    rw [Nat.sub_mul, Int.natCast_sub (Nat.mul_le_mul_right _ hb)]
    simp [signed, Int.sub_eq_add_neg]
  rw [ofNat_eq hf ha, ofNat_eq hf (n := b) (by omega), ofNat_eq hf (n := a - b) (by omega)]
  show sub _ _ = _
  simp only [sub, add, neg, hsum, Bool.false_and]
  exact ofQuotient_natCast _

theorem ofNat_mul (hf : f.Spacious) (ha : a ≤ 2 ^ f.precision) (hb : b ≤ 2 ^ f.precision)
    (h : a * b ≤ 2 ^ f.precision) : (ofNat a * ofNat b : Binary f) = ofNat (a * b) := by
  have hproduct : a * f.one * (b * f.one) = a * b * f.one * f.one := by
    rw [Nat.mul_mul_mul_comm, ← Nat.mul_assoc]
  rw [ofNat_eq hf ha, ofNat_eq hf hb, ofNat_eq hf h]
  show mul _ _ = _
  simp only [mul, hproduct]
  exact ofQuotient_mul_of_fits _ f.one_pos

end Binary

end Camouflage
