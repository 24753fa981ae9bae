import Camouflage.Synthesis.Anchor

/-!
# Synthesizers

Integers and floats have a synthesizer each. Both write a magnitude by the same
strategies, but the arithmetic is their own, and so is what they ask of a type and a
magnitude and how they make an anchor of a uniform. The operands of a strategy go back to
the synthesizer that it was chosen by, which checks each of them again.
-/

namespace Camouflage

/-- The arithmetic that a type offers to synthesis. -/
inductive Domain where
  /-- Concrete integers: words modulo two to the power of 32. -/
  | wrapping
  /-- Abstract integers: exact, and kept within 32 bits. -/
  | exact
  /-- Floats: whole numbers that never round. -/
  | precise
  deriving DecidableEq, Repr

namespace Domain

/-- The largest magnitude of a domain. -/
def largest : Domain → UInt32
  | wrapping | exact => 4294967295
  | precise => preciseLimit

/-- The largest operand that is drawn freely where sums wrap. -/
def freeLimit : UInt32 := 2147483647

/-- Only in the domain of floats is there a word that is not a magnitude. -/
theorem le_largest {domain : Domain} (h : domain ≠ .precise) (n : UInt32) : n ≤ domain.largest := by
  have hlargest : domain.largest = 4294967295 := by
    cases domain with
    | wrapping => rfl
    | exact => rfl
    | precise => exact absurd rfl h
  rw [hlargest, UInt32.le_iff_toNat_le]
  exact Nat.le_of_lt_succ n.toNat_lt

end Domain

/-- What a magnitude is synthesized by. -/
inductive Synthesizer where
  | integer
  | float
  deriving DecidableEq, Repr

namespace Synthesizer

/-- Whether a type is one that the synthesizer is made for. -/
def handles : Synthesizer → Scalar → Bool
  | integer => Scalar.isInteger
  | float => Scalar.isFloat

theorem handles_of_isInteger {ty : Scalar} (h : ty.isInteger = true) :
    integer.handles ty = true := h

theorem handles_of_isFloat {ty : Scalar} (h : ty.isFloat = true) :
    float.handles ty = true := h

/-- The domain that the operands for a type are drawn in. -/
def domain : Synthesizer → Scalar → Domain
  | integer, ty => if ty.isAbstract then .exact else .wrapping
  | float, _ => .precise

theorem domain_float (ty : Scalar) : float.domain ty = .precise := rfl

theorem domain_integer_ne (ty : Scalar) : integer.domain ty ≠ .precise := by
  cases ty <;> decide

/-- What the synthesizer asks of a type and a magnitude. Any word is a magnitude of an
integer type, but floats must not leave the precise range. -/
def check : Synthesizer → Scalar → UInt32 → Except Failure Unit
  | integer, ty, _ =>
    if !ty.isInteger then .error (.unreachableType ty) else .ok ()
  | float, ty, magnitude =>
    if !ty.isFloat then .error (.unreachableType ty)
    else if preciseLimit < magnitude then .error (.internal .floatTooLarge)
    else .ok ()

/-- The literal of a magnitude, once it has passed the check. -/
def enter (via : Synthesizer) (ty : Scalar) (magnitude : UInt32) : Except Failure Expr := do
  via.check ty magnitude
  Literal.writeMagnitude magnitude ty

/-- An anchor of a type, from what a uniform holds. -/
def anchor (via : Synthesizer) (u : Uniform) (ty : Scalar) : Except Failure Anchor := do
  let v ← u.contents
  match via with
  | integer => Anchor.ofInteger u v ty
  | float => Anchor.ofSingle u v ty

end Synthesizer

end Camouflage
