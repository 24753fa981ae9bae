import Camouflage.Binary.Round

/-!
# Floating point arithmetic

Each operation is the exact one, rounded once, with the usual conventions for
zeros, infinities and NaN: a product or quotient takes its sign from both
operands, an exact sum of zero is positive unless both operands are negative
zeros, and an operation without a meaningful result gives NaN.
-/

namespace Camouflage

namespace Binary

variable {f : Format}

/-- The number with the opposite sign. -/
def neg : Binary f → Binary f
  | nan => nan
  | infinite negative => infinite !negative
  | finite negative units fits => finite (!negative) units fits

/-- The number with a positive sign. -/
def abs : Binary f → Binary f
  | nan => nan
  | infinite _ => infinite false
  | finite _ units fits => finite false units fits

/-- A sign and a magnitude as one integer. -/
def signed (negative : Bool) (units : Nat) : Int := if negative then -units else units

/-- The sum of two numbers. -/
def add : Binary f → Binary f → Binary f
  | finite s a _, finite t b _ =>
    let sum := signed s a + signed t b
    if sum = 0 then zero (s && t) else ofQuotient (sum < 0) sum.natAbs 1
  | infinite s, infinite t => if s = t then infinite s else nan
  | infinite s, finite .. => infinite s
  | finite .., infinite t => infinite t
  | nan, _ | _, nan => nan

/-- The difference of two numbers. -/
def sub (a b : Binary f) : Binary f := add a b.neg

/-- The product of two numbers. -/
def mul : Binary f → Binary f → Binary f
  | finite s a _, finite t b _ => ofQuotient (s != t) (a * b) f.one
  | infinite s, infinite t => infinite (s != t)
  | infinite s, finite t b _ | finite t b _, infinite s =>
    if b = 0 then nan else infinite (s != t)
  | nan, _ | _, nan => nan

/-- The quotient of two numbers. -/
def div : Binary f → Binary f → Binary f
  | finite s a _, finite t b _ =>
    if b = 0 then
      if a = 0 then nan else infinite (s != t)
    else
      ofQuotient (s != t) (a * f.one) b
  | infinite s, finite t _ _ => infinite (s != t)
  | finite s _ _, infinite t => zero (s != t)
  | infinite _, infinite _ => nan
  | nan, _ | _, nan => nan

/-- The number without its fraction. The sign stays, also on a zero. -/
def trunc : Binary f → Binary f
  | nan => nan
  | infinite negative => infinite negative
  | finite negative units _ => ofUnits negative (units / f.one * f.one)

/-- The remainder of a division whose quotient is truncated. Each of the three
operations rounds. -/
def rem (a b : Binary f) : Binary f := sub a (mul b (trunc (div a b)))

/-- The nearest number within two limits. A NaN stays one. -/
def clamp (low high a : Binary f) : Binary f :=
  if a.less low then low else if high.less a then high else a

/-- The integer part of a number, held within two limits. A NaN gives zero. -/
def toIntClamped (low high : Int) : Binary f → Int
  | nan => 0
  | infinite negative => if negative then low else high
  | finite negative units _ => max low (min high (signed negative (units / f.one)))

instance : Neg (Binary f) := ⟨neg⟩
instance : Add (Binary f) := ⟨add⟩
instance : Sub (Binary f) := ⟨sub⟩
instance : Mul (Binary f) := ⟨mul⟩
instance : Div (Binary f) := ⟨div⟩
instance : Mod (Binary f) := ⟨rem⟩

end Binary

end Camouflage
