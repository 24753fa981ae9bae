import Camouflage.Failure

/-!
# Quotients modulo two to the power of 32

To write a value as a product that overflows, one factor is drawn and the other is the
least number whose product with it has the value as its low 32 bits. It is found
without a search: the number of whole turns of two to the power of 32 that must be
added to the value to make it divisible solves a linear congruence.
-/

namespace Camouflage

namespace Wrapped

/-- The greatest common divisor. -/
def gcd (a b : UInt64) : UInt64 := if b = 0 then a else gcd b (a % b)
termination_by b.toNat
decreasing_by
  rename_i h
  have : b.toNat ≠ 0 := fun h' => h (UInt64.toNat_inj.1 (by simpa using h'))
  rw [UInt64.toNat_mod]
  exact Nat.mod_lt _ (by omega)

/-! ## Modular inverses -/

/-- Two successive remainders of the division of a number by a modulus, and for each a
coefficient by which the number is congruent to it. -/
structure Euclid where
  older : Nat
  newer : Nat
  olderCoeff : Int
  newerCoeff : Int
  deriving DecidableEq, Repr

namespace Euclid

/-- The number and the modulus themselves. -/
def start (a modulus : Nat) : Euclid := ⟨a, modulus, 1, 0⟩

/-- Divides the older remainder by the newer one. -/
def step (e : Euclid) : Euclid :=
  let quotient := e.older / e.newer
  ⟨e.newer, e.older % e.newer, e.newerCoeff, e.olderCoeff - quotient * e.newerCoeff⟩

/-- Divides until nothing remains. -/
def finish (e : Euclid) : Euclid := if e.newer = 0 then e else e.step.finish
termination_by e.newer
decreasing_by exact Nat.mod_lt _ (Nat.pos_of_ne_zero ‹_›)

end Euclid

/-- The inverse of a number for a modulus that it has no common divisor with, and zero
for the modulus one. -/
def inverse (a modulus : UInt64) : UInt64 :=
  if modulus = 1 then
    0
  else
    let coeff := (Euclid.start a.toNat modulus.toNat).finish.olderCoeff
    UInt64.ofNat (coeff % (modulus.toNat : Int)).toNat

/-! ## Quotients -/

/-- The number of 32-bit words. -/
def turn : UInt64 := 4294967296

/-- A linear congruence: how often `step` makes `target` modulo `modulus`. -/
structure Congruence where
  step : UInt64
  target : UInt64
  modulus : UInt64
  deriving DecidableEq, Repr

namespace Congruence

/-- The congruence of the turns that make a value divisible: together they must come to
what the value lacks. -/
def ofQuotient (value divisor : UInt64) : Congruence where
  step := turn % divisor
  target := (divisor - value % divisor) % divisor
  modulus := divisor

/-- What divides every multiple of the step and the modulus. -/
def common (c : Congruence) : UInt64 := gcd c.step c.modulus

/-- The congruence divided by what its step and its modulus have in common, which leaves
an invertible step. -/
def reduced (c : Congruence) : Congruence :=
  ⟨c.step / c.common, c.target / c.common, c.modulus / c.common⟩

/-- The least solution of a congruence with an invertible step. -/
def solution (c : Congruence) : UInt64 := c.target * inverse c.step c.modulus % c.modulus

/-- The least solution, if there is any. -/
def least? (c : Congruence) : Option UInt64 :=
  if c.target % c.common = 0 then some c.reduced.solution else none

end Congruence

/-- The least number whose product with a divisor has a value as its low 32 bits, if
there is one. -/
def quotient? (value divisor : UInt32) : Except Failure (Option UInt32) :=
  if divisor = 0 then
    .error (.internal .zeroDivisor)
  else
    match (Congruence.ofQuotient value.toUInt64 divisor.toUInt64).least? with
    | none => .ok none
    | some turns =>
      let dividend := value.toUInt64 + turns * turn
      if dividend % divisor.toUInt64 ≠ 0 then
        .error (.internal .indivisibleMultiple)
      else
        let quotient := dividend / divisor.toUInt64 % turn
        if quotient < turn then .ok (some quotient.toUInt32)
        else .error (.internal .quotientTooLarge)

end Wrapped

end Camouflage
