import Camouflage.Binary.Format

/-!
# Bit patterns

The interchange encoding of a format: the sign bit, the exponent field and the
fraction field. Since consecutive patterns are consecutive numbers, the pattern of
a magnitude is its significand plus one full field step for each doubling of the
spacing.
-/

namespace Camouflage

namespace Format

/-- The number of patterns between one power of two and the next. -/
def step (f : Format) : Nat := Nat.pow 2 (f.precision - 1)

/-- The pattern of a positive infinity: the exponent field is all ones. -/
def infinity (f : Format) : Nat := (Nat.pow 2 f.exponentBits - 1) * f.step

/-- The weight of the sign bit. -/
def signBit (f : Format) : Nat := Nat.pow 2 f.exponentBits * f.step

end Format

namespace Binary

variable {f : Format}

/-- The pattern of a number. Every NaN takes the one pattern with only the first
bit of the fraction set. -/
def toBits : Binary f → Nat
  | nan => f.infinity + f.step / 2
  | infinite negative => negative.toNat * f.signBit + f.infinity
  | finite negative units _ =>
    negative.toNat * f.signBit + f.shift units * f.step + units / f.spacing units

/-- The number of a pattern. Bits above the sign are ignored. -/
def ofBits (bits : Nat) : Binary f :=
  let negative := bits / f.signBit % 2 == 1
  let magnitude := bits % f.signBit
  let exponent := magnitude / f.step
  let fraction := magnitude % f.step
  if f.infinity < magnitude then
    nan
  else if magnitude = f.infinity then
    infinite negative
  else if exponent = 0 then
    ofUnits negative fraction
  else
    ofUnits negative ((f.step + fraction) * Nat.pow 2 (exponent - 1))

end Binary

end Camouflage
