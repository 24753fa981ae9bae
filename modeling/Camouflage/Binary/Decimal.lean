import Camouflage.Binary.Round
import Camouflage.Numeral

/-!
# Decimal text of floating point numbers

Reading rounds the exact decimal once, directly to the format. Writing gives the
fewest significant digits that read back as the same number, and of two such digit
strings the nearer; the point is placed without an exponent however large or small
the number is.
-/

namespace Camouflage

namespace Binary

variable {f : Format}

/-- The number nearest to what a decimal says. -/
def ofNumeral : Numeral.Decimal → Binary f
  | .nan => nan
  | .infinite negative => infinite negative
  | .finite negative digits exponent => ofDecimal negative digits exponent

/-- Reads a decimal text. -/
def ofChars? (cs : List Char) : Option (Binary f) := (Numeral.decimal? cs).map ofNumeral

/-! ## The fewest digits that read back -/

/-- Whether a decimal reads as the positive number of so many units. -/
def readsAs (f : Format) (units digits : Nat) (exponent : Int) : Bool :=
  match (ofDecimal false digits exponent : Binary f) with
  | finite false read _ => read == units
  | _ => false

/-- The least exponent, from `low` on, whose power of ten exceeds the quotient. -/
def scaleFrom (num den : Nat) (low : Int) : Nat → Int
  | 0 => low
  | fuel + 1 =>
    if num * Nat.pow 10 (-low).toNat < den * Nat.pow 10 low.toNat then low
    else scaleFrom num den (low + 1) fuel

/-- The number of decimal digits in front of the point of a positive number, or
minus the number of zeros behind it. Every number of the format lies between ten to
the power of minus and plus the width of its binary range. -/
def scale (f : Format) (units : Nat) : Int :=
  scaleFrom units f.one (-f.fractionBits) (f.fractionBits + f.precision + f.maxShift)

/-- The decimal of `count` significant digits that reads back as the number: one of
its two neighbours on the grid of such decimals, the nearer if both do, and the
upper one if both are equally near. -/
def neighbour? (f : Format) (units : Nat) (place : Int) (count : Nat) : Option (Nat × Int) :=
  let exponent := place - count
  let num := units * Nat.pow 10 (-exponent).toNat
  let den := f.one * Nat.pow 10 exponent.toNat
  let lower := num / den
  let upper := lower + 1
  match readsAs f units lower exponent, readsAs f units upper exponent with
  | true, true => if 2 * (num % den) < den then some (lower, exponent) else some (upper, exponent)
  | true, false => some (lower, exponent)
  | false, true => some (upper, exponent)
  | false, false => none

/-- The shortest decimal that reads back as a positive number, tried from `count`
digits on. -/
def shortestFrom (f : Format) (units : Nat) (place : Int) (count : Nat) : Nat → Nat × Int
  | 0 => (units / f.one, 0)
  | fuel + 1 =>
    match neighbour? f units place count with
    | some found => found
    | none => shortestFrom f units place (count + 1) fuel

/-- The shortest decimal that reads back as a positive number. One digit more than there
are significant bits is always enough, since each digit narrows the grid tenfold. -/
def shortest (f : Format) (units : Nat) : Nat × Int :=
  shortestFrom f units (scale f units) 1 (f.precision + 1)

/-! ## Writing -/

/-- Digits and a power of ten in positional notation: zeros fill the places up to
the point, and a fraction of nothing is left out. -/
def positional (digits : Nat) (exponent : Int) : List Char :=
  let written := Numeral.ofNat digits
  if 0 ≤ exponent then
    written ++ List.replicate exponent.toNat '0'
  else
    let places := (-exponent).toNat
    let padded := List.replicate (places + 1 - written.length) '0' ++ written
    let fraction := (padded.drop (padded.length - places)).reverse.dropWhile (· == '0')
    let whole := padded.take (padded.length - places)
    if fraction.isEmpty then whole else whole ++ '.' :: fraction.reverse

/-- The characters of a number. -/
def chars : Binary f → List Char
  | nan => "NaN".toList
  | infinite false => "inf".toList
  | infinite true => "-inf".toList
  | finite negative units _ =>
    let (digits, exponent) := if units = 0 then (0, 0) else shortest f units
    let written := positional digits exponent
    if negative then '-' :: written else written

/-- The text of a number. -/
def text (a : Binary f) : String := String.ofList a.chars

end Binary

end Camouflage
