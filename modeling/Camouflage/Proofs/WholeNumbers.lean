import Camouflage.Proofs.Readings

/-!
# Which whole number a float is

`Binary.whole?` finds the integer that a floating point number is, if it is one. The two
zeros are the same integer, and every other whole number of a format is known by its
integer (`Binary.eq_ofInt_of_whole?`). Comparing and clamping such numbers is comparing and
clamping the integers.
-/

namespace Camouflage

namespace Binary

variable {f : Format}

/-- The integer that a number is, if it is finite and has no fraction. -/
def whole? : Binary f → Option Int
  | finite negative units _ =>
    if units % f.one = 0 then some (signed negative (units / f.one)) else none
  | nan | infinite _ => none

theorem natAbs_signed (negative : Bool) (n : Nat) : (signed negative n).natAbs = n := by
  cases negative <;> simp [signed]

theorem signed_mul (negative : Bool) (m n : Nat) :
    signed negative (m * n) = signed negative m * n := by
  cases negative with
  | false => exact Int.natCast_mul m n
  | true =>
    show -((m * n : Nat) : Int) = -(m : Int) * n
    rw [Int.natCast_mul, Int.neg_mul]

/-- Only zero has two signs. -/
theorem eq_decide_of_signed {negative : Bool} {n : Int} (h : signed negative n.natAbs = n)
    (hne : n ≠ 0) : negative = decide (n < 0) := by
  cases negative with
  | false =>
    have hnonneg : (n.natAbs : Int) = n := h
    exact (decide_eq_false (by omega)).symm
  | true =>
    have hnegative : -(n.natAbs : Int) = n := h
    exact (decide_eq_true (by omega)).symm

/-- A whole number has a sign and the units of its magnitude. -/
theorem whole?_eq_some_iff {x : Binary f} {n : Int} :
    x.whole? = some n ↔
      ∃ negative h, x = finite negative (n.natAbs * f.one) h ∧ signed negative n.natAbs = n := by
  constructor
  · intro h
    cases x with
    | nan => cases h
    | infinite negative => cases h
    | finite negative units hfits =>
      simp only [whole?] at h
      split at h
      · rename_i hdvd
        obtain rfl := Option.some.inj h
        have hunits : (signed negative (units / f.one)).natAbs * f.one = units := by
          rw [natAbs_signed]
          exact Nat.div_mul_cancel (Nat.dvd_of_mod_eq_zero hdvd)
        exact ⟨negative, hunits.symm ▸ hfits, finite_congr hunits.symm, by rw [natAbs_signed]⟩
      · cases h
  · rintro ⟨negative, h, rfl, hsigned⟩
    simp only [whole?, Nat.mul_mod_left, if_true, Nat.mul_div_cancel _ f.one_pos, hsigned]

theorem isWhole_iff {x : Binary f} : x.isWhole = true ↔ ∃ n, x.whole? = some n := by
  cases x with
  | nan => simp [isWhole, whole?]
  | infinite negative => simp [isWhole, whole?]
  | finite negative units h => simp [isWhole, whole?]

/-- Both zeros are zero. -/
theorem whole?_zero (negative : Bool) : (zero negative : Binary f).whole? = some 0 := by
  cases negative <;> simp [zero, whole?, signed]

theorem position?_finite {negative : Bool} {units : Nat} (h : f.Fits units) :
    (finite negative units h).position? = some (signed negative units) := by
  cases negative <;> rfl

theorem position?_infinite (negative : Bool) :
    (infinite negative : Binary f).position? = some (signed negative f.bound) := by
  cases negative <;> rfl

theorem position?_of_whole? {x : Binary f} {n : Int} (h : x.whole? = some n) :
    x.position? = some (n * f.one) := by
  obtain ⟨negative, hfits, rfl, hsigned⟩ := whole?_eq_some_iff.1 h
  rw [position?_finite, signed_mul, hsigned]

/-- What is numerically equal to a whole number is the same whole number. -/
theorem whole?_of_same {x y : Binary f} {n : Int} (h : x.whole? = some n) (hsame : x.same y = true) :
    y.whole? = some n := by
  obtain ⟨negative, hfits, rfl, -⟩ := whole?_eq_some_iff.1 h
  have hplace := position?_of_whole? h
  cases y with
  | nan =>
    have hnone : (nan : Binary f).position? = none := rfl
    simp [same, hplace, hnone] at hsame
  | infinite t =>
    -- the infinities stand beyond every finite number
    simp only [same, position?_finite, position?_infinite, beq_iff_eq] at hsame
    have hunits := congrArg Int.natAbs hsame
    rw [natAbs_signed, natAbs_signed] at hunits
    exact absurd hunits (Nat.ne_of_lt hfits.1)
  | finite t units hunits =>
    simp only [same, hplace, position?_finite, beq_iff_eq] at hsame
    have hmagnitude : units = n.natAbs * f.one := by
      rw [← natAbs_signed t units, ← hsame, Int.natAbs_mul, Int.natAbs_natCast]
    refine whole?_eq_some_iff.2 ⟨t, hfits, finite_congr hmagnitude, ?_⟩
    rw [hmagnitude, signed_mul] at hsame
    exact (Int.eq_of_mul_eq_mul_right (Int.natCast_ne_zero.2 (Nat.ne_of_gt f.one_pos)) hsame).symm

/-- Whole numbers compare as their integers. -/
theorem less_iff_of_whole? {x y : Binary f} {m n : Int} (hx : x.whole? = some m)
    (hy : y.whole? = some n) : x.less y = true ↔ m < n := by
  have hone : (0 : Int) < f.one := Int.natCast_pos.2 f.one_pos
  simp only [less, position?_of_whole? hx, position?_of_whole? hy, decide_eq_true_eq]
  exact Int.mul_lt_mul_right hone

/-- The integer part of a whole number is its integer, held within the limits. -/
theorem toIntClamped_eq_of_whole? {x : Binary f} {n : Int} (h : x.whole? = some n) (low high : Int) :
    x.toIntClamped low high = max low (min high n) := by
  obtain ⟨negative, hfits, rfl, hsigned⟩ := whole?_eq_some_iff.1 h
  simp only [toIntClamped, Nat.mul_div_cancel _ f.one_pos, hsigned]

theorem toIntClamped_of_whole? {x : Binary f} {n low high : Int} (h : x.whole? = some n)
    (hlow : low ≤ n) (hhigh : n ≤ high) : x.toIntClamped low high = n := by
  rw [toIntClamped_eq_of_whole? h]
  omega

theorem whole?_neg {x : Binary f} {n : Int} (h : x.whole? = some n) : (-x).whole? = some (-n) := by
  obtain ⟨negative, hfits, rfl, hsigned⟩ := whole?_eq_some_iff.1 h
  refine whole?_eq_some_iff.2 ⟨!negative, by rwa [Int.natAbs_neg], ?_, ?_⟩
  · exact finite_congr (by rw [Int.natAbs_neg])
  · rw [Int.natAbs_neg, ← hsigned]
    cases negative <;> simp [signed]

/-- A wider format has the same whole numbers. -/
theorem whole?_convert {g : Format} (hwithin : f.Within g) (x : Binary f) :
    (x.convert g).whole? = x.whole? := by
  cases x with
  | nan => rfl
  | infinite negative => rfl
  | finite negative units h =>
    have hpos : 0 < f.unitsOf g := f.unitsOf_pos g
    have hmod : units * f.unitsOf g % g.one = 0 ↔ units % f.one = 0 := by
      rw [hwithin.one_eq, Nat.mul_comm (f.unitsOf g), Nat.mul_mod_mul_right, Nat.mul_eq_zero]
      exact ⟨fun hzero => hzero.resolve_right (Nat.ne_of_gt hpos), .inl⟩
    have hdiv : units * f.unitsOf g / g.one = units / f.one := by
      rw [hwithin.one_eq, Nat.mul_comm (f.unitsOf g), Nat.mul_div_mul_right _ _ hpos]
    rw [convert_of_within hwithin]
    simp only [whole?, hmod, hdiv]

/-- A whole number that is not zero is the one nearest to its integer. -/
theorem eq_ofInt_of_whole? {x : Binary f} {n : Int} (h : x.whole? = some n) (hne : n ≠ 0) :
    x = ofInt n := by
  obtain ⟨negative, hfits, rfl, hsigned⟩ := whole?_eq_some_iff.1 h
  rw [ofInt, ofQuotient_of_fits hfits, eq_decide_of_signed hsigned hne]

theorem Rounds.whole?_of_fits {x : Binary f} {n : Int} (h : x.Rounds n)
    (hfits : f.Fits (n.natAbs * f.one)) : x.whole? = some n := by
  obtain ⟨negative, rfl, hsigned⟩ := h.exists_signed
  exact whole?_eq_some_iff.2 ⟨negative, hfits, ofQuotient_of_fits hfits, hsigned⟩

/-- Zero has two signs, and every other integer within the precision is one number. -/
theorem Rounds.whole? {x : Binary f} {n : Int} (h : x.Rounds n) (hf : f.Spacious)
    (hn : n.natAbs ≤ 2 ^ f.precision) : x.whole? = some n :=
  h.whole?_of_fits (hf.fits hn)

theorem ofUnits_ne_nan (negative : Bool) (units : Nat) : (ofUnits negative units : Binary f) ≠ nan := by
  unfold ofUnits
  split
  · exact fun h => by cases h
  · exact fun h => by cases h

/-- Numbers that one integer rounds to differ in the sign of a zero at most. -/
theorem Rounds.whole?_eq {x y : Binary f} {n : Int} (hx : x.Rounds n) (hy : y.Rounds n) :
    x.whole? = y.whole? := by
  obtain ⟨s, rfl, hs⟩ := hx
  obtain ⟨t, rfl, ht⟩ := hy
  by_cases hzero : n = 0
  · subst hzero
    rw [Int.natAbs_zero, Nat.zero_mul, ofQuotient_of_fits f.fits_zero,
      ofQuotient_of_fits f.fits_zero]
    exact (whole?_zero s).trans (whole?_zero t).symm
  · rw [hs hzero, ht hzero]

theorem rounds_ofInt (n : Int) : (ofInt n : Binary f).Rounds n := ⟨_, rfl, fun _ => rfl⟩

theorem whole?_ofInt (hf : f.Spacious) {n : Int} (hn : n.natAbs ≤ 2 ^ f.precision) :
    (ofInt n : Binary f).whole? = some n :=
  (rounds_ofInt n).whole? hf hn

end Binary

end Camouflage
