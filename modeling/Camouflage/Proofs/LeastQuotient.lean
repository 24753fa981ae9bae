import Camouflage.Proofs.WrappedQuotient
import Mathlib.Order.Bounds.Basic

/-!
# The least wrapped quotient

A wrapped quotient can be searched for: add turns of two to the power of 32 to the value
until the divisor divides it. The turns that do so are the solutions of a congruence, so that
they repeat with the divisor over what it has in common with a turn, and the one that is
computed is below that. So it is the first one that a search finds (`turns_isLeast`), and the
quotient is the least number that the divisor takes to the value (`quotient_isLeast`).

That nothing wraps on the way is said by computing the quotient a second time, in steps that
give no word where the number is none (`Exact`): all of them give one, and the same.
-/

namespace Camouflage

namespace Wrapped

/-! ## Steps that refuse to wrap -/

namespace Exact

/-- The sum of two words, if it is one. -/
def add? (a b : UInt64) : Option UInt64 := if a.toNat + b.toNat < 2 ^ 64 then some (a + b) else none

/-- The difference of two words, if it is not below zero. -/
def sub? (a b : UInt64) : Option UInt64 := if b.toNat ≤ a.toNat then some (a - b) else none

/-- The product of two words, if it is one. -/
def mul? (a b : UInt64) : Option UInt64 := if a.toNat * b.toNat < 2 ^ 64 then some (a * b) else none

/-- The quotient of two words, if there is one. -/
def div? (a b : UInt64) : Option UInt64 := if b.toNat = 0 then none else some (a / b)

/-- The remainder of two words, if there is one. -/
def mod? (a b : UInt64) : Option UInt64 := if b.toNat = 0 then none else some (a % b)

/-- The word of an integer, if it is one. -/
def ofInt? (n : Int) : Option UInt64 :=
  if 0 ≤ n ∧ n < 2 ^ 64 then some (UInt64.ofNat n.toNat) else none

/-- The inverse of a number. Only its coefficient is signed, and it is reduced before it
becomes a word. -/
def inverse? (a modulus : UInt64) : Option UInt64 :=
  if modulus = 1 then some 0
  else ofInt? ((Euclid.start a.toNat modulus.toNat).finish.olderCoeff % (modulus.toNat : Int))

/-- The congruence of the turns that make a value divisible. -/
def ofQuotient? (value divisor : UInt64) : Option Congruence := do
  let step ← mod? turn divisor
  let rest ← mod? value divisor
  let target ← mod? (← sub? divisor rest) divisor
  return ⟨step, target, divisor⟩

/-- The least solution of a congruence, if there is any. On the way to what the step and the
modulus have in common there are only remainders by numbers that are not zero. -/
def least? (c : Congruence) : Option (Option UInt64) := do
  let rest ← mod? c.target c.common
  if rest = 0 then
    let step ← div? c.step c.common
    let target ← div? c.target c.common
    let modulus ← div? c.modulus c.common
    let product ← mul? target (← inverse? step modulus)
    return some (← mod? product modulus)
  else
    return none

/-- The quotient of a value with so many turns of a size added, and the checks of it. -/
def divide? (size value divisor turns : UInt64) : Option (Except Failure (Option UInt32)) := do
  let dividend ← add? value (← mul? turns size)
  let rest ← mod? dividend divisor
  if rest ≠ 0 then
    return .error (.internal .indivisibleMultiple)
  else
    let quotient ← mod? (← div? dividend divisor) size
    return if quotient < size then .ok (some quotient.toUInt32)
      else .error (.internal .quotientTooLarge)

/-- The wrapped quotient by a divisor that is not zero. -/
def quotient? (value divisor : UInt64) : Option (Except Failure (Option UInt32)) := do
  let congruence ← ofQuotient? value divisor
  match ← least? congruence with
  | none => return .ok none
  | some turns => divide? turn value divisor turns

theorem div?_eq {a b : UInt64} (h : b ≠ 0) : div? a b = some (a / b) :=
  if_neg fun hzero => h (UInt64.toNat_inj.1 hzero)

theorem mod?_eq {a b : UInt64} (h : b ≠ 0) : mod? a b = some (a % b) :=
  if_neg fun hzero => h (UInt64.toNat_inj.1 hzero)

theorem inverse?_eq {a modulus : UInt64} (h : modulus ≠ 0) :
    inverse? a modulus = some (inverse a modulus) := by
  unfold inverse? inverse
  split
  · rfl
  · have hpos : (0 : Int) < modulus.toNat := by
      have : modulus.toNat ≠ 0 := fun hzero => h (UInt64.toNat_inj.1 hzero)
      omega
    have hsize := modulus.toNat_lt
    have hnonneg := Int.emod_nonneg (Euclid.start a.toNat modulus.toNat).finish.olderCoeff hpos.ne'
    have hlt := Int.emod_lt_of_pos (Euclid.start a.toNat modulus.toNat).finish.olderCoeff hpos
    exact if_pos ⟨hnonneg, by omega⟩

end Exact

/-! ## Turns -/

namespace Congruence

variable {c : Congruence}

/-- The solution is below the modulus over what it has in common with the step. -/
theorem least?_lt (h : c.Small) {turns : UInt64} (hsome : c.least? = some turns) :
    turns.toNat < c.modulus.toNat / c.common.toNat := by
  unfold least? at hsome
  split at hsome
  · have hlt := solution_lt h.reduced.modulus_ne
    rw [← Option.some.inj hsome]
    rwa [show c.reduced.modulus.toNat = c.modulus.toNat / c.common.toNat from
      UInt64.toNat_div _ _] at hlt
  · cases hsome

theorem least?_isSome_iff (c : Congruence) :
    c.least?.isSome = true ↔ c.common.toNat ∣ c.target.toNat := by
  have hiff : c.target % c.common = 0 ↔ c.target.toNat % c.common.toNat = 0 := by
    rw [← UInt64.toNat_inj, UInt64.toNat_mod, UInt64.toNat_zero]
  rw [Nat.dvd_iff_mod_eq_zero, ← hiff]
  unfold least?
  split
  · rename_i hzero
    simp [hzero]
  · rename_i hne
    simp [hne]

variable {value divisor : UInt32} {turns : UInt64}

/-- What the step has in common with the divisor a turn has in common with it. -/
theorem toNat_common_ofQuotient (value divisor : UInt32) :
    (ofQuotient value.toUInt64 divisor.toUInt64).common.toNat = Nat.gcd divisor.toNat (2 ^ 32) := by
  have hstep : (ofQuotient value.toUInt64 divisor.toUInt64).step.toNat = 2 ^ 32 % divisor.toNat := by
    simp [ofQuotient, turn]
  have hmodulus : (ofQuotient value.toUInt64 divisor.toUInt64).modulus.toNat = divisor.toNat := by
    simp [ofQuotient]
  rw [toNat_common, hstep, hmodulus, ← Nat.gcd_rec]

/-- There are such turns if the divisor has nothing in common with a turn that the value
lacks. -/
theorem least?_ofQuotient_isSome_iff (hdivisor : divisor ≠ 0) :
    (ofQuotient value.toUInt64 divisor.toUInt64).least?.isSome = true ↔
      Nat.gcd divisor.toNat (2 ^ 32) ∣ value.toNat := by
  rw [least?_isSome_iff, toNat_common_ofQuotient]
  have htotal : Nat.gcd divisor.toNat (2 ^ 32) ∣
      (ofQuotient value.toUInt64 divisor.toUInt64).target.toNat + value.toNat :=
    (Nat.gcd_dvd_left _ _).trans (Nat.modEq_zero_iff_dvd.1 (ofQuotient_target hdivisor))
  constructor
  · intro htarget
    exact (Nat.dvd_add_right htarget).1 htotal
  · intro hvalue
    exact (Nat.dvd_add_left hvalue).1 htotal

/-- The turns that are computed are those that a search from zero on finds first. -/
theorem turns_isLeast (hdivisor : divisor ≠ 0)
    (h : (ofQuotient value.toUInt64 divisor.toUInt64).least? = some turns) :
    IsLeast {i : Nat | divisor.toNat ∣ value.toNat + i * 2 ^ 32} turns.toNat := by
  have hdvd := dvd_of_least?_ofQuotient hdivisor h
  refine ⟨hdvd, ?_⟩
  intro i hi
  have hpos : 0 < divisor.toNat := Nat.pos_of_ne_zero fun hzero => hdivisor (UInt32.toNat_inj.1 hzero)
  have hlt := least?_lt (small_ofQuotient value hdivisor) h
  rw [toNat_common_ofQuotient] at hlt
  simp only [ofQuotient, UInt32.toNat_toUInt64] at hlt
  -- any other number of turns differs by a multiple of what this one is below
  have hsum : value.toNat + turns.toNat * 2 ^ 32 ≡ value.toNat + i * 2 ^ 32 [MOD divisor.toNat] :=
    (Nat.modEq_zero_iff_dvd.2 hdvd).trans (Nat.modEq_zero_iff_dvd.2 hi).symm
  have hmod := Nat.ModEq.cancel_right_div_gcd hpos (hsum.add_left_cancel' _)
  calc turns.toNat = turns.toNat % (divisor.toNat / Nat.gcd divisor.toNat (2 ^ 32)) :=
        (Nat.mod_eq_of_lt hlt).symm
    _ = i % (divisor.toNat / Nat.gcd divisor.toNat (2 ^ 32)) := hmod
    _ ≤ i := Nat.mod_le _ _

end Congruence

/-! ## Quotients -/

variable {value divisor : UInt32} {turns : UInt64}

/-- The quotient is below a turn over what the divisor has in common with it. -/
theorem dividend_div_lt (hdivisor : divisor ≠ 0)
    (h : (Congruence.ofQuotient value.toUInt64 divisor.toUInt64).least? = some turns) :
    (value.toNat + turns.toNat * 2 ^ 32) / divisor.toNat <
      2 ^ 32 / Nat.gcd (2 ^ 32) divisor.toNat := by
  have hpos : 0 < divisor.toNat := Nat.pos_of_ne_zero fun hzero => hdivisor (UInt32.toNat_inj.1 hzero)
  have hvalue := value.toNat_lt
  have hlt := Congruence.least?_lt (Congruence.small_ofQuotient value hdivisor) h
  rw [Congruence.toNat_common_ofQuotient] at hlt
  simp only [Congruence.ofQuotient, UInt32.toNat_toUInt64] at hlt
  rw [Nat.div_lt_iff_lt_mul hpos, Nat.gcd_comm]
  calc value.toNat + turns.toNat * 2 ^ 32
      < (turns.toNat + 1) * 2 ^ 32 := by omega
    _ ≤ divisor.toNat / Nat.gcd divisor.toNat (2 ^ 32) * 2 ^ 32 := Nat.mul_le_mul_right _ hlt
    _ = divisor.toNat * 2 ^ 32 / Nat.gcd divisor.toNat (2 ^ 32) :=
        Nat.div_mul_right_comm (Nat.gcd_dvd_left _ _) _
    _ = 2 ^ 32 / Nat.gcd divisor.toNat (2 ^ 32) * divisor.toNat := by
        rw [Nat.mul_comm, Nat.div_mul_right_comm (Nat.gcd_dvd_right _ _)]

/-- As a word the quotient loses nothing. -/
theorem toNat_quotient (hdivisor : divisor ≠ 0)
    (h : (Congruence.ofQuotient value.toUInt64 divisor.toUInt64).least? = some turns) :
    ((value.toUInt64 + turns * turn) / divisor.toUInt64 % turn).toUInt32.toNat =
      (value.toNat + turns.toNat * 2 ^ 32) / divisor.toNat := by
  have hlt : (value.toNat + turns.toNat * 2 ^ 32) / divisor.toNat < 2 ^ 32 :=
    (dividend_div_lt hdivisor h).trans_le (Nat.div_le_self _ _)
  rw [UInt64.toNat_toUInt32, UInt64.toNat_mod, UInt64.toNat_div, (toNat_dividend hdivisor h).2,
    UInt32.toNat_toUInt64, show turn.toNat = 2 ^ 32 from rfl, Nat.mod_mod, Nat.mod_eq_of_lt hlt]

/-- No smaller number is taken to the value by the divisor. -/
theorem dividend_div_isLeast (hdivisor : divisor ≠ 0)
    (h : (Congruence.ofQuotient value.toUInt64 divisor.toUInt64).least? = some turns) :
    IsLeast {n : Nat | divisor.toNat * n ≡ value.toNat [MOD 2 ^ 32]}
      ((value.toNat + turns.toNat * 2 ^ 32) / divisor.toNat) := by
  have hdvd := Congruence.dvd_of_least?_ofQuotient hdivisor h
  have hsolves : divisor.toNat * ((value.toNat + turns.toNat * 2 ^ 32) / divisor.toNat) ≡
      value.toNat [MOD 2 ^ 32] := by
    rw [Nat.mul_div_cancel' hdvd]
    exact Nat.add_mul_mod_self_right _ _ _
  refine ⟨hsolves, ?_⟩
  intro n hn
  have hlt := dividend_div_lt hdivisor h
  -- any other solution differs by a multiple of what this one is below
  have hmod := Nat.ModEq.cancel_left_div_gcd (Nat.two_pow_pos 32) (hsolves.trans hn.symm)
  calc (value.toNat + turns.toNat * 2 ^ 32) / divisor.toNat
      = (value.toNat + turns.toNat * 2 ^ 32) / divisor.toNat %
          (2 ^ 32 / Nat.gcd (2 ^ 32) divisor.toNat) := (Nat.mod_eq_of_lt hlt).symm
    _ = n % (2 ^ 32 / Nat.gcd (2 ^ 32) divisor.toNat) := hmod
    _ ≤ n := Nat.mod_le _ _

/-! ## Nothing wraps -/

namespace Exact

theorem ofQuotient?_eq (value : UInt32) (hdivisor : divisor ≠ 0) :
    ofQuotient? value.toUInt64 divisor.toUInt64 =
      some (.ofQuotient value.toUInt64 divisor.toUInt64) := by
  have hmodulus : divisor.toUInt64 ≠ 0 := (Congruence.small_ofQuotient value hdivisor).modulus_ne
  have hpos : 0 < divisor.toNat := Nat.pos_of_ne_zero fun hzero => hdivisor (UInt32.toNat_inj.1 hzero)
  -- what the value lacks of a multiple is not below zero
  have hlack : sub? divisor.toUInt64 (value.toUInt64 % divisor.toUInt64) =
      some (divisor.toUInt64 - value.toUInt64 % divisor.toUInt64) := by
    apply if_pos
    rw [UInt64.toNat_mod, UInt32.toNat_toUInt64, UInt32.toNat_toUInt64]
    exact (Nat.mod_lt _ hpos).le
  simp [ofQuotient?, Congruence.ofQuotient, mod?_eq hmodulus, hlack]

theorem least?_eq {c : Congruence} (h : c.Small) : least? c = some c.least? := by
  have hcommon : c.common ≠ 0 := by
    intro hzero
    have hpos := Congruence.common_pos h.modulus_ne
    rw [hzero] at hpos
    exact Nat.lt_irrefl 0 hpos
  have hproduct : mul? c.reduced.target (inverse c.reduced.step c.reduced.modulus) =
      some (c.reduced.target * inverse c.reduced.step c.reduced.modulus) :=
    if_pos h.reduced.product_lt
  have hmodulus := h.reduced.modulus_ne
  simp only [Congruence.reduced] at hproduct hmodulus
  simp only [least?, mod?_eq hcommon, div?_eq hcommon, inverse?_eq hmodulus, hproduct,
    mod?_eq hmodulus, Option.bind_eq_bind, Option.bind_some, Congruence.least?,
    Congruence.solution, Congruence.reduced]
  split <;> rfl

/-- The value and its turns are divided without wrapping if their sum is a word. -/
theorem divide?_eq {size value divisor turns : UInt64} (hsize : 0 < size) (hdivisor : divisor ≠ 0)
    (hbound : value.toNat + turns.toNat * size.toNat < 2 ^ 64)
    (hrest : (value + turns * size) % divisor = 0) :
    divide? size value divisor turns =
      some (.ok (some ((value + turns * size) / divisor % size).toUInt32)) := by
  have hproduct : mul? turns size = some (turns * size) := by
    apply if_pos
    omega
  have hsum : add? value (turns * size) = some (value + turns * size) := by
    apply if_pos
    rw [UInt64.toNat_mul, Nat.mod_eq_of_lt (by omega)]
    exact hbound
  have hquotient : (value + turns * size) / divisor % size < size := UInt64.mod_lt _ hsize
  have hne : size ≠ 0 := by
    rintro rfl
    exact absurd hsize (by decide)
  simp [divide?, hproduct, hsum, mod?_eq hdivisor, div?_eq hdivisor, hrest, mod?_eq hne, hquotient]

/-- Every step gives a word, and the result is the same. -/
theorem quotient?_eq (value : UInt32) (hdivisor : divisor ≠ 0) :
    quotient? value.toUInt64 divisor.toUInt64 = some (Wrapped.quotient? value divisor) := by
  rw [Wrapped.quotient?_eq value hdivisor, quotient?, ofQuotient?_eq value hdivisor]
  simp only [Option.bind_eq_bind, Option.bind_some,
    least?_eq (Congruence.small_ofQuotient value hdivisor)]
  cases hleast : (Congruence.ofQuotient value.toUInt64 divisor.toUInt64).least? with
  | none => rfl
  | some turns =>
    exact divide?_eq (by decide) (Congruence.small_ofQuotient value hdivisor).modulus_ne
      (toNat_dividend hdivisor hleast).1 (dividend_mod hdivisor hleast)

end Exact

/-- The wrapped quotient never fails and never leaves the range of its words. It exists if
what the divisor has in common with a turn divides the value, and then it is the least number
that the divisor takes to the value, which is the first one that a search over the turns
finds. -/
theorem quotient_isLeast (value : UInt32) {divisor : UInt32} (hdivisor : divisor ≠ 0) :
    Exact.quotient? value.toUInt64 divisor.toUInt64 = some (quotient? value divisor) ∧
    ∃ result, quotient? value divisor = .ok result ∧
      (result.isSome = true ↔ Nat.gcd divisor.toNat (2 ^ 32) ∣ value.toNat) ∧
      ∀ quotient, result = some quotient →
        IsLeast {n : Nat | divisor.toNat * n ≡ value.toNat [MOD 2 ^ 32]} quotient.toNat ∧
        ∃ i, IsLeast {i : Nat | divisor.toNat ∣ value.toNat + i * 2 ^ 32} i ∧
          quotient.toNat = (value.toNat + i * 2 ^ 32) / divisor.toNat := by
  refine ⟨Exact.quotient?_eq value hdivisor, _, quotient?_eq value hdivisor, ?_, ?_⟩
  · rw [Option.isSome_map]
    exact Congruence.least?_ofQuotient_isSome_iff hdivisor
  · intro quotient hsome
    obtain ⟨turns, hleast, rfl⟩ := Option.map_eq_some_iff.1 hsome
    have hquotient := toNat_quotient hdivisor hleast
    rw [hquotient]
    exact ⟨dividend_div_isLeast hdivisor hleast, turns.toNat,
      Congruence.turns_isLeast hdivisor hleast, rfl⟩

/-- An even divisor of a value with as many factors of two, at two turns. -/
theorem quotient_isLeast_even :
    (6 : UInt32) ≠ 0 ∧ quotient? 10 6 = .ok (some 1431655767) ∧
      IsLeast {n : Nat | 6 * n ≡ 10 [MOD 2 ^ 32]} 1431655767 := by
  have hdivisor : (6 : UInt32) ≠ 0 := by decide
  have hquotient : quotient? 10 6 = .ok (some 1431655767) := by decide +kernel
  obtain ⟨-, result, hresult, -, hleast⟩ := quotient_isLeast 10 hdivisor
  rw [hquotient] at hresult
  refine ⟨hdivisor, hquotient, ?_⟩
  simpa using (hleast _ (Except.ok.inj hresult).symm).1

end Wrapped

end Camouflage
