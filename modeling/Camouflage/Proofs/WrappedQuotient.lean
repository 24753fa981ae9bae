import Camouflage.Synthesis.WrappedQuotient
import Mathlib.Data.Int.ModEq
import Mathlib.Tactic.Linarith

/-!
# Wrapped quotients divide

The extended algorithm of Euclid keeps, for each of its two remainders, a coefficient by
which the number it started from is congruent to it (`Euclid.Tracks`). At the end the
older remainder is the greatest common divisor, so for an invertible number its
coefficient is the inverse. From there on every product stays below two to the power of
64, and the congruence that `quotient?` solves is one of natural numbers.

Main statement: `quotient?_spec`, a wrapped quotient times its divisor is the value, and
none of the checks on the way can fail.
-/

namespace Camouflage

namespace Wrapped

theorem toNat_gcd (a b : UInt64) : (gcd a b).toNat = Nat.gcd a.toNat b.toNat := by
  fun_induction gcd a b with
  | case1 a => simp
  | case2 a b hb ih => rw [ih, UInt64.toNat_mod, Nat.gcd_comm, ← Nat.gcd_rec, Nat.gcd_comm]

namespace Euclid

/-- The new remainder in signed numbers. -/
theorem natCast_remainder (e : Euclid) :
    ((e.older % e.newer : Nat) : Int) = e.older - (e.older / e.newer : Nat) * e.newer := by
  rw [Int.natCast_mod, Int.emod_def, Int.natCast_div, mul_comm]

/-- The remainders have the common divisors of the number and the modulus, and each is
the number times its coefficient, up to multiples of the modulus. -/
structure Tracks (a modulus : Nat) (e : Euclid) : Prop where
  gcd_eq : Nat.gcd e.older e.newer = Nat.gcd a modulus
  older_modEq : e.olderCoeff * a ≡ e.older [ZMOD modulus]
  newer_modEq : e.newerCoeff * a ≡ e.newer [ZMOD modulus]

theorem tracks_start (a modulus : Nat) : (start a modulus).Tracks a modulus where
  gcd_eq := rfl
  older_modEq := by simp [start, Int.ModEq.refl]
  newer_modEq := by simp [start, Int.ModEq]

theorem Tracks.step {a modulus : Nat} {e : Euclid} (h : e.Tracks a modulus) :
    e.step.Tracks a modulus where
  gcd_eq := by
    show Nat.gcd e.newer (e.older % e.newer) = _
    rw [← h.gcd_eq, Nat.gcd_comm, ← Nat.gcd_rec, Nat.gcd_comm]
  older_modEq := h.newer_modEq
  newer_modEq := by
    -- the same multiple is taken off the remainder and off its coefficient
    show (e.olderCoeff - (e.older / e.newer : Nat) * e.newerCoeff) * a ≡
      ((e.older % e.newer : Nat) : Int) [ZMOD modulus]
    rw [natCast_remainder, sub_mul, mul_assoc]
    exact h.older_modEq.sub (h.newer_modEq.mul_left _)

/-- What holds of the start and is kept by a step holds at the end, where nothing
remains. -/
theorem Tracks.finish {a modulus : Nat} {e : Euclid} (h : e.Tracks a modulus) :
    e.finish.Tracks a modulus := by
  fun_induction Euclid.finish e with
  | case1 e _ => exact h
  | case2 e _ ih => exact ih h.step

theorem finish_newer (e : Euclid) : e.finish.newer = 0 := by
  fun_induction Euclid.finish e with
  | case1 e hzero => exact hzero
  | case2 e _ ih => exact ih

theorem finish_older (a modulus : Nat) : (start a modulus).finish.older = Nat.gcd a modulus := by
  have h := (tracks_start a modulus).finish.gcd_eq
  rwa [finish_newer, Nat.gcd_zero_right] at h

/-- The coefficient that is left of an invertible number is an inverse of it. -/
theorem finish_olderCoeff {a modulus : Nat} (h : Nat.Coprime a modulus) :
    (start a modulus).finish.olderCoeff * a ≡ 1 [ZMOD modulus] := by
  have hcoeff := (tracks_start a modulus).finish.older_modEq
  rw [finish_older, h.gcd_eq_one] at hcoeff
  exact hcoeff

end Euclid

/-! ## Inverses -/

section Inverse

variable {a modulus : UInt64}

/-- The inverse is the coefficient that is left of the number, reduced. -/
theorem toNat_inverse (hmodulus : modulus ≠ 0) (hne : modulus ≠ 1) :
    ((inverse a modulus).toNat : Int) =
      (Euclid.start a.toNat modulus.toNat).finish.olderCoeff % modulus.toNat := by
  have hpos : (0 : Int) < modulus.toNat := by
    have : modulus.toNat ≠ 0 := fun h => hmodulus (UInt64.toNat_inj.1 h)
    omega
  have hsize := modulus.toNat_lt
  have hnonneg := Int.emod_nonneg (Euclid.start a.toNat modulus.toNat).finish.olderCoeff hpos.ne'
  have hlt := Int.emod_lt_of_pos (Euclid.start a.toNat modulus.toNat).finish.olderCoeff hpos
  simp only [inverse, if_neg hne]
  rw [UInt64.toNat_ofNat_of_lt' (by rw [UInt64.size]; omega)]
  exact Int.toNat_of_nonneg hnonneg

theorem inverse_lt (hmodulus : modulus ≠ 0) : (inverse a modulus).toNat < modulus.toNat := by
  by_cases hne : modulus = 1
  · simp [inverse, hne]
  · have hpos : (0 : Int) < modulus.toNat := by
      have : modulus.toNat ≠ 0 := fun h => hmodulus (UInt64.toNat_inj.1 h)
      omega
    have hlt := Int.emod_lt_of_pos (Euclid.start a.toNat modulus.toNat).finish.olderCoeff hpos
    rw [← toNat_inverse hmodulus hne] at hlt
    exact Int.ofNat_lt.1 hlt

theorem inverse_modEq (hmodulus : modulus ≠ 0) (h : Nat.Coprime a.toNat modulus.toNat) :
    (inverse a modulus).toNat * a.toNat ≡ 1 [MOD modulus.toNat] := by
  by_cases hne : modulus = 1
  · subst hne
    exact Nat.modEq_one
  · rw [← Int.natCast_modEq_iff]
    push_cast
    rw [toNat_inverse hmodulus hne]
    exact ((Int.mod_modEq _ _).mul_right _).trans (Euclid.finish_olderCoeff h)

end Inverse

/-! ## Congruences -/

namespace Congruence

variable {c : Congruence}

/-- A congruence small enough for its products to stay within 64 bits. -/
structure Small (c : Congruence) : Prop where
  modulus_ne : c.modulus ≠ 0
  modulus_le : c.modulus.toNat ≤ 2 ^ 32
  target_lt : c.target.toNat < c.modulus.toNat

theorem solution_lt (h : c.modulus ≠ 0) : c.solution.toNat < c.modulus.toNat := by
  have : c.modulus.toNat ≠ 0 := fun hzero => h (UInt64.toNat_inj.1 hzero)
  rw [solution, UInt64.toNat_mod]
  exact Nat.mod_lt _ (by omega)

theorem Small.product_lt (h : c.Small) :
    c.target.toNat * (inverse c.step c.modulus).toNat < 2 ^ 64 := by
  have hinverse := inverse_lt (a := c.step) h.modulus_ne
  calc c.target.toNat * (inverse c.step c.modulus).toNat
      < 2 ^ 32 * 2 ^ 32 :=
        Nat.mul_lt_mul'' (h.target_lt.trans_le h.modulus_le) (hinverse.trans_le h.modulus_le)
    _ = 2 ^ 64 := by norm_num

/-- A congruence with an invertible step is solved by the target times the inverse. -/
theorem solution_modEq (h : c.Small) (hstep : Nat.Coprime c.step.toNat c.modulus.toNat) :
    c.solution.toNat * c.step.toNat ≡ c.target.toNat [MOD c.modulus.toNat] := by
  -- without wrapping the words compute the product of the numbers
  rw [solution, UInt64.toNat_mod, UInt64.toNat_mul, Nat.mod_eq_of_lt h.product_lt]
  calc c.target.toNat * (inverse c.step c.modulus).toNat % c.modulus.toNat * c.step.toNat
      ≡ c.target.toNat * (inverse c.step c.modulus).toNat * c.step.toNat [MOD c.modulus.toNat] :=
        (Nat.mod_modEq _ _).mul_right _
    _ ≡ c.target.toNat * 1 [MOD c.modulus.toNat] := by
        rw [mul_assoc]
        exact (inverse_modEq h.modulus_ne hstep).mul_left _
    _ ≡ c.target.toNat [MOD c.modulus.toNat] := by rw [mul_one]

theorem toNat_common (c : Congruence) :
    c.common.toNat = Nat.gcd c.step.toNat c.modulus.toNat := toNat_gcd _ _

theorem common_pos (h : c.modulus ≠ 0) : 0 < c.common.toNat := by
  rw [toNat_common]
  exact Nat.gcd_pos_of_pos_right _ (Nat.pos_of_ne_zero fun hzero => h (UInt64.toNat_inj.1 hzero))

theorem common_dvd_modulus (c : Congruence) : c.common.toNat ∣ c.modulus.toNat := by
  rw [toNat_common]
  exact Nat.gcd_dvd_right _ _

theorem common_dvd_step (c : Congruence) : c.common.toNat ∣ c.step.toNat := by
  rw [toNat_common]
  exact Nat.gcd_dvd_left _ _

theorem Small.reduced (h : c.Small) : c.reduced.Small := by
  have hpos := common_pos h.modulus_ne
  have hlt : c.target.toNat / c.common.toNat < c.modulus.toNat / c.common.toNat :=
    Nat.div_lt_div_of_lt_of_dvd c.common_dvd_modulus h.target_lt
  refine ⟨fun hzero => ?_, ?_, ?_⟩
  · have := congrArg UInt64.toNat hzero
    rw [Congruence.reduced, UInt64.toNat_div, UInt64.toNat_zero] at this
    rw [this] at hlt
    exact absurd hlt (Nat.not_lt_zero _)
  · rw [Congruence.reduced, UInt64.toNat_div]
    exact (Nat.div_le_self _ _).trans h.modulus_le
  · rw [Congruence.reduced, UInt64.toNat_div, UInt64.toNat_div]
    exact hlt

theorem coprime_reduced (h : c.modulus ≠ 0) :
    Nat.Coprime c.reduced.step.toNat c.reduced.modulus.toNat := by
  have hpos := common_pos h
  rw [reduced, UInt64.toNat_div, UInt64.toNat_div, toNat_common] at *
  exact Nat.coprime_div_gcd_div_gcd hpos

/-- The least solution solves the congruence. -/
theorem least?_modEq (h : c.Small) {turns : UInt64} (hsome : c.least? = some turns) :
    turns.toNat < c.modulus.toNat ∧
      turns.toNat * c.step.toNat ≡ c.target.toNat [MOD c.modulus.toNat] := by
  unfold least? at hsome
  split at hsome
  · rename_i hzero
    obtain rfl := Option.some.inj hsome
    have hdvd : c.common.toNat ∣ c.target.toNat :=
      Nat.dvd_of_mod_eq_zero (by simpa using congrArg UInt64.toNat hzero)
    have hsmall := h.reduced
    have hmodulus : c.reduced.modulus.toNat = c.modulus.toNat / c.common.toNat :=
      UInt64.toNat_div _ _
    have hstep : c.reduced.step.toNat = c.step.toNat / c.common.toNat := UInt64.toNat_div _ _
    have htarget : c.reduced.target.toNat = c.target.toNat / c.common.toNat :=
      UInt64.toNat_div _ _
    have hlt := solution_lt hsmall.modulus_ne
    -- the reduced congruence, multiplied by what it was divided by
    have heq := (solution_modEq hsmall (coprime_reduced h.modulus_ne)).mul_left' c.common.toNat
    rw [hmodulus] at hlt
    rw [hmodulus, hstep, htarget, Nat.mul_div_cancel' c.common_dvd_modulus,
      Nat.mul_div_cancel' hdvd, mul_left_comm, Nat.mul_div_cancel' c.common_dvd_step] at heq
    exact ⟨hlt.trans_le (Nat.div_le_self _ _), heq⟩
  · cases hsome

/-! ## Turns -/

variable {value divisor : UInt32}

theorem small_ofQuotient (value : UInt32) (hdivisor : divisor ≠ 0) :
    (ofQuotient value.toUInt64 divisor.toUInt64).Small := by
  have hpos : 0 < divisor.toNat := Nat.pos_of_ne_zero fun h => hdivisor (UInt32.toNat_inj.1 h)
  have hlt := divisor.toNat_lt
  refine ⟨fun hzero => ?_, ?_, ?_⟩
  · have := congrArg UInt64.toNat hzero
    simp only [ofQuotient, UInt32.toNat_toUInt64, UInt64.toNat_zero] at this
    omega
  · simp only [ofQuotient, UInt32.toNat_toUInt64]
    omega
  · simp only [ofQuotient, UInt64.toNat_mod, UInt32.toNat_toUInt64]
    exact Nat.mod_lt _ hpos

/-- The target is what the value lacks of a multiple of the divisor. -/
theorem ofQuotient_target (hdivisor : divisor ≠ 0) :
    (ofQuotient value.toUInt64 divisor.toUInt64).target.toNat + value.toNat ≡ 0
      [MOD divisor.toNat] := by
  have hpos : 0 < divisor.toNat := Nat.pos_of_ne_zero fun h => hdivisor (UInt32.toNat_inj.1 h)
  have hmod := Nat.mod_lt value.toNat hpos
  have hle : value.toUInt64 % divisor.toUInt64 ≤ divisor.toUInt64 := by
    rw [UInt64.le_iff_toNat_le, UInt64.toNat_mod, UInt32.toNat_toUInt64, UInt32.toNat_toUInt64]
    exact hmod.le
  simp only [ofQuotient, UInt64.toNat_mod, UInt64.toNat_sub_of_le _ _ hle, UInt32.toNat_toUInt64]
  calc (divisor.toNat - value.toNat % divisor.toNat) % divisor.toNat + value.toNat
      ≡ (divisor.toNat - value.toNat % divisor.toNat) + value.toNat % divisor.toNat
          [MOD divisor.toNat] := (Nat.mod_modEq _ _).add (Nat.mod_modEq _ _).symm
    _ = divisor.toNat := Nat.sub_add_cancel hmod.le
    _ ≡ 0 [MOD divisor.toNat] := by simp [Nat.ModEq]

/-- With its turns added, the value is a multiple of the divisor. -/
theorem dvd_of_least?_ofQuotient (hdivisor : divisor ≠ 0) {turns : UInt64}
    (h : (ofQuotient value.toUInt64 divisor.toUInt64).least? = some turns) :
    divisor.toNat ∣ value.toNat + turns.toNat * 2 ^ 32 := by
  have hsolved := (least?_modEq (small_ofQuotient value hdivisor) h).2
  have hstep : (ofQuotient value.toUInt64 divisor.toUInt64).step.toNat =
      2 ^ 32 % divisor.toNat := by
    simp [ofQuotient, turn]
  have hmodulus : (ofQuotient value.toUInt64 divisor.toUInt64).modulus.toNat = divisor.toNat := by
    simp [ofQuotient]
  rw [hmodulus, hstep] at hsolved
  refine Nat.modEq_zero_iff_dvd.1 ?_
  calc value.toNat + turns.toNat * 2 ^ 32
      ≡ value.toNat + turns.toNat * (2 ^ 32 % divisor.toNat) [MOD divisor.toNat] :=
        ((Nat.mod_modEq _ _).symm.mul_left _).add_left _
    _ ≡ value.toNat + (ofQuotient value.toUInt64 divisor.toUInt64).target.toNat
          [MOD divisor.toNat] := hsolved.add_left _
    _ ≡ 0 [MOD divisor.toNat] := by
        rw [add_comm]
        exact ofQuotient_target hdivisor

end Congruence

/-! ## Quotients -/

section Quotients

variable {value divisor : UInt32} {turns : UInt64}

/-- With its turns added, the value stays within 64 bits. -/
theorem toNat_dividend (hdivisor : divisor ≠ 0)
    (h : (Congruence.ofQuotient value.toUInt64 divisor.toUInt64).least? = some turns) :
    value.toNat + turns.toNat * 2 ^ 32 < 2 ^ 64 ∧
      (value.toUInt64 + turns * turn).toNat = value.toNat + turns.toNat * 2 ^ 32 := by
  have hturns := (Congruence.least?_modEq (Congruence.small_ofQuotient value hdivisor) h).1
  have hdivisorLt := divisor.toNat_lt
  have hvalueLt := value.toNat_lt
  simp only [Congruence.ofQuotient, UInt32.toNat_toUInt64] at hturns
  have hproduct : turns.toNat * 2 ^ 32 < 2 ^ 64 := by omega
  have hsum : value.toNat + turns.toNat * 2 ^ 32 < 2 ^ 64 := by omega
  refine ⟨hsum, ?_⟩
  rw [UInt64.toNat_add, UInt64.toNat_mul, UInt32.toNat_toUInt64,
    show turn.toNat = 2 ^ 32 from rfl, Nat.mod_eq_of_lt hproduct]
  exact Nat.mod_eq_of_lt hsum

theorem dividend_mod (hdivisor : divisor ≠ 0)
    (h : (Congruence.ofQuotient value.toUInt64 divisor.toUInt64).least? = some turns) :
    (value.toUInt64 + turns * turn) % divisor.toUInt64 = 0 := by
  refine UInt64.toNat_inj.1 ?_
  rw [UInt64.toNat_mod, (toNat_dividend hdivisor h).2, UInt32.toNat_toUInt64]
  exact Nat.mod_eq_zero_of_dvd (Congruence.dvd_of_least?_ofQuotient hdivisor h)

/-- None of the checks fails: what is left is the division of the value with its turns. -/
theorem quotient?_eq (value : UInt32) {divisor : UInt32} (hdivisor : divisor ≠ 0) :
    quotient? value divisor =
      .ok ((Congruence.ofQuotient value.toUInt64 divisor.toUInt64).least?.map fun turns =>
        ((value.toUInt64 + turns * turn) / divisor.toUInt64 % turn).toUInt32) := by
  unfold quotient?
  rw [if_neg hdivisor]
  cases hleast : (Congruence.ofQuotient value.toUInt64 divisor.toUInt64).least? with
  | none => rfl
  | some turns =>
    have hquotient : (value.toUInt64 + turns * turn) / divisor.toUInt64 % turn < turn :=
      UInt64.mod_lt _ (by decide)
    simp only [dividend_mod hdivisor hleast, ne_eq, not_true_eq_false, if_false, hquotient, if_true,
      Option.map_some]

/-- A wrapped quotient exists or not, but its checks never fail, and times its divisor it
is the value. -/
theorem quotient?_spec (value : UInt32) {divisor : UInt32} (hdivisor : divisor ≠ 0) :
    ∃ result, quotient? value divisor = .ok result ∧
      ∀ quotient, result = some quotient → divisor * quotient = value := by
  refine ⟨_, quotient?_eq value hdivisor, ?_⟩
  intro quotient hsome
  obtain ⟨turns, hleast, rfl⟩ := Option.map_eq_some_iff.1 hsome
  have hdvd := Congruence.dvd_of_least?_ofQuotient hdivisor hleast
  have hvalueLt := value.toNat_lt
  -- what the quotient loses as a word is a multiple of a turn again
  refine UInt32.toNat_inj.1 ?_
  calc (divisor * ((value.toUInt64 + turns * turn) / divisor.toUInt64 % turn).toUInt32).toNat
      = divisor.toNat * ((value.toNat + turns.toNat * 2 ^ 32) / divisor.toNat % 2 ^ 32 % 2 ^ 32)
          % 2 ^ 32 := by
        rw [UInt32.toNat_mul, UInt64.toNat_toUInt32, UInt64.toNat_mod, UInt64.toNat_div,
          (toNat_dividend hdivisor hleast).2, UInt32.toNat_toUInt64]
        rfl
    _ = (value.toNat + turns.toNat * 2 ^ 32) % 2 ^ 32 := by
        rw [Nat.mod_mod, Nat.mul_mod_mod, Nat.mul_div_cancel' hdvd]
    _ = value.toNat := by
        rw [Nat.add_mul_mod_self_right, Nat.mod_eq_of_lt hvalueLt]

end Quotients

end Wrapped

end Camouflage
