import Camouflage.Proofs.LiteralRange
import Mathlib.Data.Int.ConditionallyCompleteOrder
import Mathlib.Data.Rat.Floor

/-!
# Floats converted to integers are truncated and clamped

A number of single precision is converted to a word without its fraction, and clamped to the
numbers of single precision within the range of the word. What that means is said here about
the rational number that it stands for (`Binary.value?`), with the infinities beyond all of
them: the word is the integer toward zero, held between two limits (`Binary.Clamps`).

Both limits are numbers of single precision, and so is a whole part, so the word is one too. It
is converted back without rounding, and then once more to the same word.
-/

namespace Camouflage

/-- The numbers of a kind together with an infinity at both ends. -/
abbrev Extended (α : Type) := WithBot (WithTop α)

/-- A number among them. -/
abbrev Extended.finite {α : Type} (a : α) : Extended α := ((a : WithTop α) : WithBot (WithTop α))

/-! ## Truncation of rational numbers -/

/-- The integer that is left of a rational number without its fraction. -/
def towardZero (q : ℚ) : ℤ := if 0 ≤ q then ⌊q⌋ else ⌈q⌉

theorem towardZero_mono : Monotone towardZero := by
  intro p q hle
  unfold towardZero
  split
  · rename_i hp
    rw [if_pos (hp.trans hle)]
    exact Int.floor_mono hle
  · rename_i hp
    split
    · rename_i hq
      have hceil : ⌈p⌉ ≤ 0 := Int.ceil_le.2 (by exact_mod_cast (not_le.1 hp).le)
      exact hceil.trans (Int.floor_nonneg.2 hq)
    · exact Int.ceil_mono hle

theorem towardZero_intCast (n : ℤ) : towardZero n = n := by
  unfold towardZero
  split
  · exact Int.floor_intCast n
  · exact Int.ceil_intCast n

theorem towardZero_neg (q : ℚ) : towardZero (-q) = -towardZero q := by
  unfold towardZero
  rcases lt_trichotomy q 0 with hq | rfl | hq
  · rw [if_pos (neg_nonneg.2 hq.le), if_neg (not_le.2 hq), Int.floor_neg]
  · simp
  · rw [if_neg (not_le.2 (neg_lt_zero.2 hq)), if_pos hq.le, Int.ceil_neg]

/-- On both sides of zero the magnitudes are divided without a fraction. -/
theorem towardZero_signed (negative : Bool) (m d : Nat) :
    towardZero (Binary.signed negative m / d) = Binary.signed negative (m / d) := by
  have hpositive : towardZero ((m : ℚ) / d) = ((m / d : Nat) : ℤ) := by
    have hnonneg : (0 : ℚ) ≤ (m : ℚ) / d := by positivity
    rw [towardZero, if_pos hnonneg, Rat.floor_natCast_div_natCast]
    rfl
  cases negative with
  | false => exact hpositive
  | true =>
    show towardZero (((-(m : ℤ) : ℤ) : ℚ) / d) = -((m / d : Nat) : ℤ)
    rw [Int.cast_neg, Int.cast_natCast, neg_div, towardZero_neg, hpositive]

/-- The same with the infinities, which have no fraction. -/
def Extended.towardZero : Extended ℚ → Extended ℤ := WithBot.map (WithTop.map Camouflage.towardZero)

theorem Extended.towardZero_mono : Monotone Extended.towardZero :=
  Camouflage.towardZero_mono.withTop_map.withBot_map

theorem Extended.towardZero_finite (q : ℚ) : (finite q).towardZero = finite (Camouflage.towardZero q) := rfl

theorem Extended.finite_le_finite {m n : ℤ} : finite m ≤ finite n ↔ m ≤ n :=
  WithBot.coe_le_coe.trans WithTop.coe_le_coe

theorem Extended.finite_mono : Monotone (finite : ℤ → Extended ℤ) := fun _ _ => finite_le_finite.2

theorem Extended.finite_injective : Function.Injective (finite : ℤ → Extended ℤ) :=
  WithBot.coe_injective.comp WithTop.coe_injective

namespace Format

variable {f : Format} {units : Nat}

/-- What is left of a number without its fraction is a number, too. -/
theorem Spacious.fits_whole (hf : f.Spacious) (h : f.Fits units) :
    f.Fits (units / f.one * f.one) := by
  obtain ⟨n, hn, hscaled⟩ := h.exists_scaled
  by_cases hfraction : f.shift units < f.fractionBits
  -- a number that can have a fraction is small enough for all of its whole part
  · refine hf.fits (Nat.div_le_of_le_mul ?_)
    calc units = n * 2 ^ f.shift units := hscaled
      _ ≤ 2 ^ f.precision * 2 ^ f.fractionBits :=
          Nat.mul_le_mul (Nat.le_of_lt hn) (Nat.pow_le_pow_right (by omega) (Nat.le_of_lt hfraction))
      _ = f.one * 2 ^ f.precision := Nat.mul_comm _ _
  · have hdvd : f.one ∣ units := by
      rw [hscaled, one_eq_two_pow]
      exact Nat.dvd_mul_left_of_dvd (Nat.pow_dvd_pow 2 (Nat.le_of_not_lt hfraction)) n
    rwa [Nat.div_mul_cancel hdvd]

/-- As many bits as the format has, in their place, are a number of it. -/
theorem fits_shifted {n k : Nat} (hn : n < 2 ^ f.precision) (hk : k ≤ f.maxShift) :
    f.Fits (n * 2 ^ k) := by
  refine fits_of_scaled (Nat.le_of_lt hn) ?_
  calc n * 2 ^ k < 2 ^ f.precision * 2 ^ k := Nat.mul_lt_mul_of_pos_right hn (Nat.two_pow_pos k)
    _ ≤ 2 ^ f.precision * 2 ^ f.maxShift :=
        Nat.mul_le_mul_left _ (Nat.pow_le_pow_right (by omega) hk)
    _ = f.bound := (Nat.pow_add ..).symm

end Format

namespace Binary

variable {f : Format} {x : Binary f}

/-- What a number stands for. Both zeros are zero, and a NaN stands for nothing. -/
def value? : Binary f → Option (Extended ℚ)
  | nan => none
  | infinite false => some ⊤
  | infinite true => some ⊥
  | finite negative units _ => some (.finite (signed negative units / f.one))

theorem value?_eq_none_iff : x.value? = none ↔ x = nan := by
  cases x with
  | nan => simp [value?]
  | infinite negative => cases negative <;> simp [value?]
  | finite negative units h => simp [value?]

theorem value?_of_whole? {n : Int} (h : x.whole? = some n) : x.value? = some (.finite (n : ℚ)) := by
  obtain ⟨negative, hfits, rfl, hsigned⟩ := whole?_eq_some_iff.1 h
  have hone : (f.one : ℚ) ≠ 0 := Nat.cast_ne_zero.2 f.one_pos.ne'
  rw [value?, signed_mul, hsigned, Int.cast_mul, Int.cast_natCast, mul_div_cancel_right₀ _ hone]

/-! ## Truncation -/

theorem trunc_finite (hf : f.Spacious) {negative : Bool} {units : Nat} (h : f.Fits units) :
    (finite negative units h).trunc = finite negative (units / f.one * f.one) (hf.fits_whole h) :=
  ofUnits_of_fits _

theorem whole?_trunc (hf : f.Spacious) {negative : Bool} {units : Nat} (h : f.Fits units) :
    (finite negative units h).trunc.whole? = some (signed negative (units / f.one)) := by
  rw [trunc_finite hf, whole?, Nat.mul_mod_left, if_pos rfl, Nat.mul_div_cancel _ f.one_pos]

/-! ## Clamping -/

section Clamping

variable {low high : Binary f} {l h n : Int}

/-- The infinities are beyond all whole numbers. -/
theorem less_infinite (hx : x.whole? = some n) (negative : Bool) :
    x.less (infinite negative) = !negative ∧ (infinite negative : Binary f).less x = negative := by
  obtain ⟨sign, hfits, rfl, -⟩ := whole?_eq_some_iff.1 hx
  have hbound := hfits.1
  have hsigned := natAbs_signed sign (n.natAbs * f.one)
  simp only [less, position?_finite, position?_infinite]
  cases negative with
  | false =>
    show decide (_ < (f.bound : Int)) = true ∧ decide ((f.bound : Int) < _) = false
    simp only [decide_eq_true_eq, decide_eq_false_iff_not]
    omega
  | true =>
    show decide (_ < -(f.bound : Int)) = false ∧ decide (-(f.bound : Int) < _) = true
    simp only [decide_eq_true_eq, decide_eq_false_iff_not]
    omega

theorem whole?_clamp (hlow : low.whole? = some l) (hhigh : high.whole? = some h) (hle : l ≤ h)
    (hx : x.whole? = some n) : (clamp low high x).whole? = some (max l (min n h)) := by
  have hbelow := less_iff_of_whole? hx hlow
  have habove := less_iff_of_whole? hhigh hx
  unfold clamp
  split
  · rename_i hless
    have hlt := hbelow.1 hless
    rw [hlow]
    exact congrArg some (by omega)
  · rename_i hnot
    have hge : ¬ n < l := fun hlt => hnot (hbelow.2 hlt)
    split
    · rename_i hless
      have hlt := habove.1 hless
      rw [hhigh]
      exact congrArg some (by omega)
    · rename_i hnot'
      have hle' : ¬ h < n := fun hlt => hnot' (habove.2 hlt)
      rw [hx]
      exact congrArg some (by omega)

theorem clamp_infinite (hlow : low.whole? = some l) (hhigh : high.whole? = some h) (negative : Bool) :
    clamp low high (infinite negative) = if negative then low else high := by
  rw [clamp, (less_infinite hlow negative).2, (less_infinite hhigh negative).1]
  cases negative <;> rfl

/-- Whatever a number stands for, its integer toward zero between whole limits is a whole number
of the format. -/
theorem exists_whole?_clamp_trunc (hf : f.Spacious) (hlow : low.whole? = some l)
    (hhigh : high.whole? = some h) (hle : l ≤ h) {value : Extended ℚ} (hx : x.value? = some value) :
    ∃ n, (clamp low high x.trunc).whole? = some n ∧ l ≤ n ∧ n ≤ h ∧
      Extended.finite n = max (.finite l) (min value.towardZero (.finite h)) := by
  cases x with
  | nan => cases hx
  | infinite negative =>
    show ∃ n, (clamp low high (infinite negative)).whole? = some n ∧ _
    rw [clamp_infinite hlow hhigh]
    cases negative with
    | false =>
      obtain rfl := Option.some.inj hx
      refine ⟨h, hhigh, hle, le_rfl, ?_⟩
      show Extended.finite h = max (.finite l) (min ⊤ (.finite h))
      rw [min_top_left, max_eq_right (Extended.finite_mono hle)]
    | true =>
      obtain rfl := Option.some.inj hx
      refine ⟨l, hlow, le_rfl, hle, ?_⟩
      show Extended.finite l = max (.finite l) (min ⊥ (.finite h))
      rw [min_bot_left, max_bot_right]
  | finite negative units hfits =>
    obtain rfl := Option.some.inj hx
    refine ⟨_, whole?_clamp hlow hhigh hle (whole?_trunc hf hfits), by omega, by omega, ?_⟩
    rw [Extended.finite_mono.map_max, Extended.finite_mono.map_min, ← towardZero_signed]
    rfl

end Clamping

/-! ## Words -/

/-- A conversion of numbers of single precision to words truncates and clamps: a word is the
integer toward zero, held between two limits, and zero for a NaN. So a greater number gives no
smaller word, a word is converted back without rounding, and then to the same word again. -/
structure Clamps {Word : Type} (toWord : Single → Word) (integer : Word → ℤ)
    (ofWord : Word → Single) (low high : ℤ) : Prop where
  of_nan : integer (toWord nan) = 0
  eq_clamped : ∀ x value, x.value? = some value →
    Extended.finite (integer (toWord x)) = max (.finite low) (min value.towardZero (.finite high))
  mono : ∀ x y p q, x.value? = some p → y.value? = some q → p ≤ q →
    integer (toWord x) ≤ integer (toWord y)
  ofWord_exact : ∀ x, (ofWord (toWord x)).value? = some (.finite (integer (toWord x) : ℚ))
  toWord_ofWord : ∀ x, toWord (ofWord (toWord x)) = toWord x

section Words

variable {Word : Type} {toWord : Single → Word} {integer : Word → ℤ} {ofWord : Word → Single}
  {low high : Single} {l h : ℤ}

/-- What a conversion needs: limits around zero that are numbers of single precision, and a word
for each integer between them. -/
theorem clamps_of_whole? (hlow : low.whole? = some l) (hhigh : high.whole? = some h) (hl : l ≤ 0)
    (hh : 0 ≤ h) (hnan : integer (toWord nan) = 0)
    (htoWord : ∀ x n, (clamp low high x.trunc).whole? = some n → l ≤ n → n ≤ h →
      integer (toWord x) = n)
    (hofWord : ∀ w, ofWord w = ofInt (integer w))
    (hinjective : Function.Injective integer) : Clamps toWord integer ofWord l h := by
  have hclamped : ∀ x value, x.value? = some value → Extended.finite (integer (toWord x)) =
      max (.finite l) (min value.towardZero (.finite h)) := by
    intro x value hvalue
    obtain ⟨n, hn, hln, hnh, heq⟩ :=
      exists_whole?_clamp_trunc Format.single_spacious hlow hhigh (hl.trans hh) hvalue
    rw [htoWord x n hn hln hnh, heq]
  have hword : ∀ x, l ≤ integer (toWord x) ∧ integer (toWord x) ≤ h ∧
      (ofInt (integer (toWord x)) : Single).whole? = some (integer (toWord x)) := by
    intro x
    cases hvalue : x.value? with
    | none =>
      obtain rfl := value?_eq_none_iff.1 hvalue
      rw [hnan]
      exact ⟨hl, hh, whole?_ofInt Format.single_spacious (Nat.zero_le _)⟩
    | some value =>
      obtain ⟨n, hn, hln, hnh, -⟩ :=
        exists_whole?_clamp_trunc Format.single_spacious hlow hhigh (hl.trans hh) hvalue
      rw [htoWord x n hn hln hnh]
      exact ⟨hln, hnh, exists_whole?_eq_some_iff.1 ⟨_, hn⟩⟩
  refine ⟨hnan, hclamped, ?_, ?_, ?_⟩
  · intro x y p q hp hq hle
    refine Extended.finite_le_finite.1 ?_
    rw [hclamped x p hp, hclamped y q hq]
    exact max_le_max le_rfl (min_le_min (Extended.towardZero_mono hle) le_rfl)
  · intro x
    rw [hofWord]
    exact value?_of_whole? (hword x).2.2
  · intro x
    obtain ⟨hln, hnh, hwhole⟩ := hword x
    rw [hofWord]
    refine hinjective (Extended.finite_injective ?_)
    rw [hclamped _ _ (value?_of_whole? hwhole), Extended.towardZero_finite, towardZero_intCast,
      min_eq_left (Extended.finite_mono hnh), max_eq_right (Extended.finite_mono hln)]

/-- A whole number is held between the limits as it is. -/
theorem Clamps.integer_of_whole? (hclamps : Clamps toWord integer ofWord l h) {x : Single} {n : ℤ}
    (hx : x.whole? = some n) : integer (toWord x) = max l (min n h) := by
  refine Extended.finite_injective ?_
  rw [hclamps.eq_clamped x _ (value?_of_whole? hx), Extended.towardZero_finite, towardZero_intCast,
    Extended.finite_mono.map_max, Extended.finite_mono.map_min]

end Words

/-! ## The limits -/

/-- As many bits as the format has, followed by zeros, are a whole number of it. -/
theorem whole?_ofInt_shifted {n : ℤ} (bits k : Nat) (hbits : bits < 2 ^ f.precision)
    (hk : k ≤ f.maxShift) (hn : n.natAbs * f.one = bits * 2 ^ k) :
    (ofInt n : Binary f).whole? = some n := by
  refine (rounds_ofInt n).whole?_of_fits ?_
  rw [hn]
  exact Format.fits_shifted hbits hk

theorem whole?_leastInt32 :
    (ofInt Int32.minValue.toInt : Single).whole? = some Int32.minValue.toInt :=
  whole?_ofInt_shifted 1 180 (by decide) (by decide) (by decide +kernel)

theorem whole?_greatestInt32 : greatestInt32.whole? = some 2147483520 :=
  whole?_ofInt_shifted 16777215 156 (by decide) (by decide) (by decide +kernel)

theorem whole?_greatestUInt32 : greatestUInt32.whole? = some 4294967040 :=
  whole?_ofInt_shifted 16777215 157 (by decide) (by decide) (by decide +kernel)

theorem clamp_nan (low high : Binary f) : clamp low high nan = nan := by
  simp [clamp, less, position?]

theorem clamps_toInt32 :
    Clamps toInt32 Int32.toInt (fun w => ofInt w.toInt) Int32.minValue.toInt 2147483520 := by
  have hmin := Int32.toInt_minValue
  have hmax := Int32.toInt_maxValue
  refine clamps_of_whole? whole?_leastInt32 whole?_greatestInt32 (by omega) (by omega) ?_ ?_
    (fun _ => rfl) (fun _ _ => Int32.toInt_inj.1)
  · rw [toInt32, trunc, clamp_nan]
    rfl
  · intro x n hn hlow hhigh
    rw [toInt32, toIntClamped_of_whole? hn hlow (by omega)]
    exact Int32.toInt_ofInt_of_le (by omega) (by omega)

theorem clamps_toUInt32 :
    Clamps toUInt32 (fun w => (w.toNat : ℤ)) (fun w => ofNat w.toNat) 0 4294967040 := by
  have hsize : UInt32.size = 2 ^ 32 := rfl
  refine clamps_of_whole? (whole?_zero false) whole?_greatestUInt32 le_rfl (by omega) ?_ ?_
    (fun _ => (ofInt_natCast _).symm) (fun _ _ h => UInt32.toNat_inj.1 (Int.ofNat_inj.1 h))
  · rw [toUInt32, trunc, clamp_nan]
    rfl
  · intro x n hn hlow hhigh
    rw [toUInt32, toIntClamped_of_whole? hn hlow (by omega),
      UInt32.toNat_ofNat_of_lt' (by omega), Int.toNat_of_nonneg hlow]

/-- Both conversions to words truncate and clamp, the signed one to the least signed word and
the unsigned one to zero, and above to the greatest number of single precision in range. -/
theorem truncates_and_clamps :
    Clamps toInt32 Int32.toInt (fun w => ofInt w.toInt) (-2147483648) 2147483520 ∧
      Clamps toUInt32 (fun w => (w.toNat : ℤ)) (fun w => ofNat w.toNat) 0 4294967040 :=
  ⟨clamps_toInt32, clamps_toUInt32⟩

end Binary

end Camouflage
