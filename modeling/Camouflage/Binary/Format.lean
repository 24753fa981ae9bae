/-!
# Binary floating point numbers

A format fixes how many significant bits a number has and how wide its exponent
field is. Every finite number of a format is a whole multiple of its least
positive number, the *unit*; a number is therefore kept as its sign and the count
of units of its magnitude, and which counts a format can hold is a plain
statement about natural numbers, `Format.Fits`. Exact arithmetic on counts takes
the place of exponents and significands.
-/

namespace Camouflage

/-- A binary interchange format: the significant bits, the implicit one included,
and the bits of the exponent field. -/
structure Format where
  precision : Nat
  exponentBits : Nat
  precision_pos : 0 < precision := by decide
  two_le_exponentBits : 2 ≤ exponentBits := by decide
  deriving DecidableEq, Repr

namespace Format

/-- The format of 32 bits. -/
def single : Format where
  precision := 24
  exponentBits := 8

/-- The format of 64 bits. -/
def double : Format where
  precision := 53
  exponentBits := 11

variable (f : Format)

/-- The unit is two to the power of minus this number. -/
def fractionBits : Nat := Nat.pow 2 (f.exponentBits - 1) - 2 + (f.precision - 1)

/-- The count of units that make the number one. -/
def one : Nat := Nat.pow 2 f.fractionBits

/-- The largest number of doublings of a significand. -/
def maxShift : Nat := Nat.pow 2 f.exponentBits - 3

/-- The first count of units beyond the largest number. -/
def bound : Nat := Nat.pow 2 (f.precision + f.maxShift)

/-- How far apart the numbers lie around a magnitude, as a power of two. It is
zero, the unit itself, throughout the range of subnormal numbers. -/
def shift (units : Nat) : Nat := units.log2 + 1 - f.precision

/-- How far apart the numbers lie around a magnitude. -/
def spacing (units : Nat) : Nat := Nat.pow 2 (f.shift units)

/-- Whether the format has a number of exactly this magnitude: it must be below
the bound and on the grid of its surroundings. -/
def Fits (units : Nat) : Prop := units < f.bound ∧ units % f.spacing units = 0

instance (units : Nat) : Decidable (f.Fits units) := inferInstanceAs (Decidable (_ ∧ _))

theorem bound_pos : 0 < f.bound := Nat.two_pow_pos _

theorem one_pos : 0 < f.one := Nat.two_pow_pos _

theorem spacing_pos (units : Nat) : 0 < f.spacing units := Nat.two_pow_pos _

theorem fits_zero : f.Fits 0 := ⟨f.bound_pos, Nat.zero_mod _⟩

end Format

/-- A floating point number of a format. Nothing tells two NaNs apart. -/
inductive Binary (f : Format) where
  | nan
  | infinite (negative : Bool)
  | finite (negative : Bool) (units : Nat) (fits : f.Fits units)
  deriving DecidableEq

/-- Numbers of single precision. -/
abbrev Single := Binary .single

/-- Numbers of double precision. -/
abbrev Double := Binary .double

namespace Binary

variable {f : Format}

/-- A zero of the given sign. -/
def zero (negative : Bool) : Binary f := finite negative 0 f.fits_zero

instance : Inhabited (Binary f) := ⟨zero false⟩

/-- The magnitude of so many units, or an infinity where the format has no number
for it. -/
def ofUnits (negative : Bool) (units : Nat) : Binary f :=
  if h : f.Fits units then finite negative units h else infinite negative

theorem ofUnits_of_fits {negative : Bool} {units : Nat} (h : f.Fits units) :
    (ofUnits negative units : Binary f) = finite negative units h := by
  simp [ofUnits, h]

/-- Whether the number is neither a NaN nor an infinity. -/
def isFinite : Binary f → Bool
  | finite .. => true
  | nan | infinite _ => false

/-- Whether the number is finite and has no fraction. -/
def isWhole : Binary f → Bool
  | finite _ units _ => units % f.one == 0
  | nan | infinite _ => false

/-- The place of a number in the numeric order, counted in units. The infinities
stand where the first numbers beyond the range would. -/
def position? : Binary f → Option Int
  | nan => none
  | infinite false => some f.bound
  | infinite true => some (-f.bound)
  | finite false units _ => some units
  | finite true units _ => some (-units)

/-- Whether one number is below another. A NaN is below nothing, and the two zeros
are equal. -/
def less (a b : Binary f) : Bool :=
  match a.position?, b.position? with
  | some x, some y => x < y
  | _, _ => false

/-- Whether two numbers are numerically equal. A NaN equals nothing, and the two
zeros are equal. -/
def same (a b : Binary f) : Bool :=
  match a.position?, b.position? with
  | some x, some y => x == y
  | _, _ => false

end Binary

end Camouflage
