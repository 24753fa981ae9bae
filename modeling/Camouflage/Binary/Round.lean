import Camouflage.Binary.Format

/-!
# Rounding to nearest, ties to even

Every operation whose exact result is no number of the format is computed as an
exact quotient of natural numbers first and then rounded once, by `nearest`. The
conversions from integers, decimals and other formats are such operations.
-/

namespace Camouflage

/-- The whole number nearest to a quotient, the even one of two. -/
def roundQuotient (num den : Nat) : Nat :=
  let whole := num / den
  let twice := 2 * (num % den)
  if den < twice ∨ (den = twice ∧ whole % 2 = 1) then whole + 1 else whole

theorem roundQuotient_mul (n : Nat) {den : Nat} (h : 0 < den) :
    roundQuotient (n * den) den = n := by
  simp [roundQuotient, Nat.mul_div_cancel _ h]
  omega

/-- Only the proportion matters. -/
theorem roundQuotient_mul_mul (num den : Nat) {k : Nat} (hk : 0 < k) :
    roundQuotient (num * k) (den * k) = roundQuotient num den := by
  have hmod : 2 * (num * k % (den * k)) = 2 * (num % den) * k := by
    rw [Nat.mul_mod_mul_right, Nat.mul_assoc]
  simp only [roundQuotient, Nat.mul_div_mul_right _ _ hk, hmod, Nat.mul_lt_mul_right hk,
    Nat.mul_left_inj (Nat.ne_of_gt hk)]

namespace Format

/-- The multiple of the local spacing nearest to a quotient of units. -/
def nearest (f : Format) (num den : Nat) : Nat :=
  let spacing := f.spacing (num / den)
  roundQuotient num (den * spacing) * spacing

/-- A quotient that comes to a magnitude that fits is rounded to it. -/
theorem nearest_mul_of_fits {f : Format} {units den : Nat} (h : f.Fits units) (hden : 0 < den) :
    f.nearest (units * den) den = units := by
  have hdvd : units / f.spacing units * f.spacing units = units :=
    Nat.div_mul_cancel (Nat.dvd_of_mod_eq_zero h.2)
  have hnum : units * den = units / f.spacing units * (den * f.spacing units) := by
    rw [Nat.mul_comm den, ← Nat.mul_assoc, hdvd]
  simp only [nearest, Nat.mul_div_cancel _ hden]
  rw [hnum, roundQuotient_mul _ (Nat.mul_pos hden (f.spacing_pos _)), hdvd]

theorem nearest_mul_mul (f : Format) (num : Nat) {k : Nat} (hk : 0 < k) :
    f.nearest (num * k) k = f.nearest num 1 := by
  simp only [nearest, Nat.mul_div_cancel _ hk, Nat.div_one, Nat.one_mul]
  rw [Nat.mul_comm k, roundQuotient_mul_mul _ _ hk]

end Format

namespace Binary

variable {f : Format}

/-- The number nearest to a magnitude given as a quotient of units. -/
def ofQuotient (negative : Bool) (num den : Nat) : Binary f :=
  ofUnits negative (f.nearest num den)

theorem ofQuotient_mul_of_fits {negative : Bool} {units den : Nat} (h : f.Fits units)
    (hden : 0 < den) : (ofQuotient negative (units * den) den : Binary f) = finite negative units h := by
  rw [ofQuotient, Format.nearest_mul_of_fits h hden, ofUnits_of_fits h]

theorem ofQuotient_of_fits {negative : Bool} {units : Nat} (h : f.Fits units) :
    (ofQuotient negative units 1 : Binary f) = finite negative units h := by
  have hone := Format.nearest_mul_of_fits h Nat.one_pos
  rw [Nat.mul_one] at hone
  rw [ofQuotient, hone, ofUnits_of_fits h]

/-- The number nearest to an integer. Zero becomes the positive zero. -/
def ofInt (n : Int) : Binary f := ofQuotient (n < 0) (n.natAbs * f.one) 1

/-- The number nearest to a natural number. -/
def ofNat (n : Nat) : Binary f := ofQuotient false (n * f.one) 1

/-- The number nearest to a decimal, `digits` times ten to the power of `exponent`.

Powers far outside the range of the format are not computed. A nonzero decimal is
at least `2 ^ exponent` for a positive exponent, hence beyond the bound in the
second case; in the third it is less than `2 ^ (exponent + size)` for digits of
`size` bits, hence less than half a unit. -/
def ofDecimal (negative : Bool) (digits : Nat) (exponent : Int) : Binary f :=
  if digits = 0 then
    zero negative
  else if (f.precision + f.maxShift : Nat) < exponent then
    infinite negative
  else if exponent + (digits.log2 + 1 : Nat) < -(f.fractionBits + 1 : Nat) then
    zero negative
  else
    ofQuotient negative (digits * Nat.pow 10 exponent.toNat * f.one) (Nat.pow 10 (-exponent).toNat)

/-- The same number in another format, or the nearest one there. -/
def convert (g : Format) : Binary f → Binary g
  | nan => nan
  | infinite negative => infinite negative
  | finite negative units _ => ofQuotient negative (units * g.one) f.one

end Binary

end Camouflage
