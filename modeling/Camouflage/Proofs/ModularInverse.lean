import Camouflage.Proofs.WrappedQuotient
import Mathlib.Tactic.Ring

/-!
# The inverse within its modulus

The extended algorithm of Euclid divides signed numbers. Its two coefficients have opposite
signs, and their magnitudes, each weighted with the remainder of the other one, add up to the
modulus at all times (`Euclid.Balanced`). So no coefficient grows beyond the modulus before
nothing remains, and neither does any other number on the way.

That is said by dividing a second time, with a check behind every single operation
(`Limited`): with the modulus as the limit no check fails, the divisions end, and what comes
out is the same inverse. Main statement: `inverse_within_modulus`.
-/

namespace Camouflage

namespace Wrapped

/-! ## Operations within a limit -/

namespace Limited

/-- A number, if its magnitude is within the limit. -/
def check? (limit : Nat) (n : Int) : Option Int := if n.natAbs ≤ limit then some n else none

/-- What `Euclid` holds, in signed numbers throughout. -/
structure State where
  older : Int
  newer : Int
  olderCoeff : Int
  newerCoeff : Int
  deriving DecidableEq, Repr

/-- The number and the modulus themselves. -/
def start? (limit : Nat) (a modulus : Int) : Option State := do
  return ⟨← check? limit a, ← check? limit modulus, ← check? limit 1, ← check? limit 0⟩

/-- Divides the older remainder by the newer one. -/
def step? (limit : Nat) (e : State) : Option State := do
  let quotient ← check? limit (e.older.tdiv e.newer)
  let product ← check? limit (quotient * e.newer)
  let remainder ← check? limit (e.older - product)
  let coeffProduct ← check? limit (quotient * e.newerCoeff)
  let coeff ← check? limit (e.olderCoeff - coeffProduct)
  return ⟨e.newer, remainder, e.newerCoeff, coeff⟩

/-- Divides until nothing remains, if that is the case before the rounds are used up. -/
def finish? (limit : Nat) : (rounds : Nat) → State → Option State
  | 0, _ => none
  | rounds + 1, e => if e.newer = 0 then some e else do finish? limit rounds (← step? limit e)

/-- The inverse for a modulus other than one. -/
def inverse? (limit rounds : Nat) (a modulus : UInt64) : Option UInt64 := do
  let e ← finish? limit rounds (← start? limit a.toNat modulus.toNat)
  return UInt64.ofNat (← check? limit (e.olderCoeff % (modulus.toNat : Int))).toNat

theorem check?_eq {limit : Nat} {n : Int} (h : n.natAbs ≤ limit) : check? limit n = some n :=
  if_pos h

end Limited

/-! ## Coefficients of opposite signs -/

namespace Euclid

/-- The same state in signed numbers. -/
def signed (e : Euclid) : Limited.State := ⟨e.older, e.newer, e.olderCoeff, e.newerCoeff⟩

/-- The coefficients have opposite signs and weigh as much as the modulus together, and nothing
is beyond the modulus yet. -/
structure Balanced (modulus : Nat) (e : Euclid) : Prop where
  older_pos : 0 < e.older
  older_le : e.older ≤ modulus
  newer_le : e.newer ≤ modulus
  olderCoeff_le : e.olderCoeff.natAbs ≤ modulus
  opposite : e.olderCoeff * e.newerCoeff ≤ 0
  weight : e.older * e.newerCoeff.natAbs + e.newer * e.olderCoeff.natAbs = modulus

variable {modulus : Nat} {e : Euclid}

theorem balanced_start {a : Nat} (hpos : 0 < a) (hle : a ≤ modulus) : (start a modulus).Balanced modulus where
  older_pos := hpos
  older_le := hle
  newer_le := Nat.le_refl _
  olderCoeff_le := hpos.trans_le hle
  opposite := by simp [start]
  weight := by simp [start]

theorem Balanced.newerCoeff_le (h : e.Balanced modulus) : e.newerCoeff.natAbs ≤ modulus :=
  calc e.newerCoeff.natAbs ≤ e.older * e.newerCoeff.natAbs := Nat.le_mul_of_pos_left _ h.older_pos
    _ ≤ modulus := h.weight ▸ Nat.le_add_right _ _

/-- A multiple of one coefficient taken off the other only adds to its magnitude. -/
theorem Balanced.natAbs_step (h : e.Balanced modulus) (quotient : Nat) :
    (e.olderCoeff - quotient * e.newerCoeff).natAbs =
      e.olderCoeff.natAbs + quotient * e.newerCoeff.natAbs := by
  have hquotient : (0 : Int) ≤ quotient := Int.natCast_nonneg _
  have hmul : (-(quotient * e.newerCoeff)).natAbs = quotient * e.newerCoeff.natAbs := by
    rw [Int.natAbs_neg, Int.natAbs_mul, Int.natAbs_natCast]
  rw [sub_eq_add_neg]
  rcases mul_nonpos_iff.1 h.opposite with ⟨holder, hnewer⟩ | ⟨holder, hnewer⟩
  · have hnonneg := neg_nonneg.2 (mul_nonpos_of_nonneg_of_nonpos hquotient hnewer)
    rw [Int.natAbs_add_of_nonneg holder hnonneg, hmul]
  · have hnonpos := neg_nonpos.2 (mul_nonneg hquotient hnewer)
    rw [Int.natAbs_add_of_nonpos holder hnonpos, hmul]

theorem Balanced.step (h : e.Balanced modulus) (hnewer : e.newer ≠ 0) : e.step.Balanced modulus where
  older_pos := Nat.pos_of_ne_zero hnewer
  older_le := h.newer_le
  newer_le := (Nat.mod_lt _ (Nat.pos_of_ne_zero hnewer)).le.trans h.newer_le
  olderCoeff_le := h.newerCoeff_le
  opposite := by
    show e.newerCoeff * (e.olderCoeff - (e.older / e.newer : Nat) * e.newerCoeff) ≤ 0
    have hsquare := mul_nonneg (Int.natCast_nonneg (e.older / e.newer)) (mul_self_nonneg e.newerCoeff)
    have hopposite := h.opposite
    linarith
  weight := by
    have hdivision := Nat.div_add_mod e.older e.newer
    show e.newer * (e.olderCoeff - (e.older / e.newer : Nat) * e.newerCoeff).natAbs +
      e.older % e.newer * e.newerCoeff.natAbs = modulus
    calc e.newer * (e.olderCoeff - (e.older / e.newer : Nat) * e.newerCoeff).natAbs +
          e.older % e.newer * e.newerCoeff.natAbs
        = (e.newer * (e.older / e.newer) + e.older % e.newer) * e.newerCoeff.natAbs +
            e.newer * e.olderCoeff.natAbs := by rw [h.natAbs_step]; ring
      _ = modulus := by rw [hdivision, h.weight]

/-! ## No check fails -/

/-- While something remains, a division in signed numbers passes all checks, and is the one of
`step`. -/
theorem Balanced.step?_signed (h : e.Balanced modulus) (hnewer : e.newer ≠ 0) :
    Limited.step? modulus e.signed = some e.step.signed := by
  have hnext := h.step hnewer
  -- the magnitude of the new coefficient bounds the multiple that is taken off
  have hcoeff := hnext.newerCoeff_le
  change (e.olderCoeff - (e.older / e.newer : Nat) * e.newerCoeff).natAbs ≤ modulus at hcoeff
  have hmultiple : ((e.older / e.newer : Nat) * e.newerCoeff).natAbs ≤ modulus := by
    rw [h.natAbs_step] at hcoeff
    rw [Int.natAbs_mul, Int.natAbs_natCast]
    exact (Nat.le_add_left ..).trans hcoeff
  have hquotient : ((e.older / e.newer : Nat) : Int).natAbs ≤ modulus :=
    (Nat.div_le_self ..).trans h.older_le
  have hproduct : ((e.older / e.newer : Nat) * (e.newer : Int)).natAbs ≤ modulus :=
    (Nat.div_mul_le_self ..).trans h.older_le
  have hremainder : ((e.older % e.newer : Nat) : Int).natAbs ≤ modulus := hnext.newer_le
  have htdiv : (e.older : Int).tdiv e.newer = (e.older / e.newer : Nat) := (Int.ofNat_tdiv ..).symm
  simp only [Limited.step?, signed, htdiv, Option.bind_eq_bind, Option.bind_some,
    Limited.check?_eq hquotient, Limited.check?_eq hproduct, ← natCast_remainder,
    Limited.check?_eq hremainder, Limited.check?_eq hmultiple, Limited.check?_eq hcoeff]
  rfl

/-- Since the newer remainder falls with each division, the divisions end where those of
`finish` do. -/
theorem Balanced.finish?_signed (h : e.Balanced modulus) {rounds : Nat} (hrounds : e.newer < rounds) :
    Limited.finish? modulus rounds e.signed = some e.finish.signed := by
  fun_induction Euclid.finish e generalizing rounds with
  | case1 e hzero =>
    obtain ⟨rounds, rfl⟩ := Nat.exists_eq_add_one_of_ne_zero (Nat.ne_zero_of_lt hrounds)
    have hnothing : e.signed.newer = 0 := Int.natCast_eq_zero.2 hzero
    rw [Limited.finish?, if_pos hnothing]
  | case2 e hnewer ih =>
    obtain ⟨rounds, rfl⟩ := Nat.exists_eq_add_one_of_ne_zero (Nat.ne_zero_of_lt hrounds)
    have hfalls : e.step.newer < e.newer := Nat.mod_lt _ (Nat.pos_of_ne_zero hnewer)
    have hremains : e.signed.newer ≠ 0 := Int.natCast_ne_zero.2 hnewer
    rw [Limited.finish?, if_neg hremains, h.step?_signed hnewer]
    exact ih (h.step hnewer) (by omega)

end Euclid

/-! ## The inverse -/

namespace Limited

variable {a modulus : UInt64}

/-- With the modulus as the limit every check is passed. -/
theorem inverse?_eq (hmodulus : modulus ≠ 1) (hpos : 0 < a.toNat) (hlt : a.toNat < modulus.toNat) :
    inverse? modulus.toNat (modulus.toNat + 1) a modulus = some (inverse a modulus) := by
  have hbalanced := Euclid.balanced_start hpos hlt.le
  have hstart : start? modulus.toNat a.toNat modulus.toNat =
      some (Euclid.start a.toNat modulus.toNat).signed := by
    rw [start?, check?_eq (by rw [Int.natAbs_natCast]; exact hlt.le),
      check?_eq (by rw [Int.natAbs_natCast]), check?_eq (n := 1) (by omega), check?_eq (n := 0) (by omega)]
    rfl
  have hmodulusPos : (0 : Int) < modulus.toNat := by omega
  have hnonneg := Int.emod_nonneg (Euclid.start a.toNat modulus.toNat).finish.olderCoeff hmodulusPos.ne'
  have hbelow := Int.emod_lt_of_pos (Euclid.start a.toNat modulus.toNat).finish.olderCoeff hmodulusPos
  have hfinish := hbalanced.finish?_signed (Nat.lt_succ_self modulus.toNat)
  rw [inverse?, hstart, Option.bind_eq_bind, Option.bind_some, hfinish, Option.bind_eq_bind,
    Option.bind_some]
  simp only [Euclid.signed]
  rw [check?_eq (by omega), inverse, if_neg hmodulus]
  rfl

end Limited

/-- For a modulus of at least two and a number below it that is prime to it, the divisions end,
no number on the way is beyond the modulus, and what comes out is below the modulus and inverse
to the number. What two numbers have in common is their greatest common divisor. -/
theorem inverse_within_modulus :
    (∀ a modulus : UInt64, 2 ≤ modulus.toNat → a.toNat < modulus.toNat →
      Nat.Coprime a.toNat modulus.toNat →
        (∃ rounds, Limited.inverse? modulus.toNat rounds a modulus = some (inverse a modulus)) ∧
          (inverse a modulus).toNat < modulus.toNat ∧
          a.toNat * (inverse a modulus).toNat ≡ 1 [MOD modulus.toNat]) ∧
      ∀ a b : UInt64, (gcd a b).toNat = Nat.gcd a.toNat b.toNat ∧ gcd 0 b = b := by
  constructor
  · intro a modulus htwo hlt hcoprime
    have hne : modulus ≠ 0 := by
      rintro rfl
      exact absurd htwo (by decide)
    have hone : modulus ≠ 1 := by
      rintro rfl
      exact absurd htwo (by decide)
    have hpos : 0 < a.toNat := by
      refine Nat.pos_of_ne_zero fun hzero => ?_
      rw [hzero, Nat.coprime_zero_left] at hcoprime
      omega
    refine ⟨⟨_, Limited.inverse?_eq hone hpos hlt⟩, inverse_lt hne, ?_⟩
    rw [mul_comm]
    exact inverse_modEq hne hcoprime
  · intro a b
    refine ⟨toNat_gcd a b, UInt64.toNat_inj.1 ?_⟩
    rw [toNat_gcd]
    exact Nat.gcd_zero_left _

/-- The modulus is a whole turn, and the divisions end in the fifth round. -/
theorem inverse_within_modulus_turn :
    (2 ≤ turn.toNat ∧ (641 : UInt64).toNat < turn.toNat ∧
      Nat.Coprime (641 : UInt64).toNat turn.toNat) ∧
    Limited.inverse? turn.toNat 5 641 turn = some (inverse 641 turn) ∧
    inverse 641 turn = 6700417 ∧ 641 * 6700417 ≡ 1 [MOD 2 ^ 32] := by
  have htwo : 2 ≤ turn.toNat := by decide
  have hlt : (641 : UInt64).toNat < turn.toNat := by decide
  have hcoprime : Nat.Coprime (641 : UInt64).toNat turn.toNat := by decide +kernel
  have hinverse : inverse 641 turn = 6700417 := by decide +kernel
  obtain ⟨-, -, hmodEq⟩ := inverse_within_modulus.1 641 turn htwo hlt hcoprime
  rw [hinverse] at hmodEq
  exact ⟨⟨htwo, hlt, hcoprime⟩, by decide +kernel, hinverse, hmodEq⟩

end Wrapped

end Camouflage
