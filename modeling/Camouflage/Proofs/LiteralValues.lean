import Camouflage.Proofs.Integers
import Camouflage.Proofs.Requests
import Camouflage.Proofs.Rounding

/-!
# Disguised literals keep their value

Synthesis reads a literal as a number of double precision, and a shader evaluates it as a
value of the type that its suffix states, which may be rounded elsewhere. Where the number
is whole and one that is disguised, the value is that whole number too. So both forms of the
disguise are worth what the literal is worth, as a value of the type asked for.

There is one exception. A negative zero is a whole number that passes as zero, and zero is
what it is disguised as, without the sign.
-/

namespace Camouflage

/-! ## Numbers -/

namespace Binary

variable {f g : Format}

/-- A number that an integer rounds to is that integer, if it is below two to the power of
the precision. -/
theorem Rounds.eq_of_whole? {x : Binary f} {m n : Int} (h : x.Rounds m) (hf : f.Spacious)
    (hx : x.whole? = some n) (hn : n.natAbs < 2 ^ f.precision) : m = n := by
  rcases Nat.le_total m.natAbs (2 ^ f.precision) with hle | hge
  · have hm := h.whole? hf hle
    rw [hx] at hm
    exact (Option.some.inj hm).symm
  · -- what is not below rounds to nothing below
    obtain ⟨negative, rfl, -⟩ := h
    obtain ⟨sign, hfits, heq, -⟩ := whole?_eq_some_iff.1 hx
    obtain ⟨-, hnearest⟩ := of_ofQuotient_eq_finite heq
    have hle : 2 ^ (f.precision + f.fractionBits) ≤ m.natAbs * f.one / 1 := by
      rw [Nat.pow_add, Nat.div_one]
      exact Nat.mul_le_mul_right _ hge
    have hpow := Format.two_pow_le_nearest (f := f) hle
    rw [hnearest, Nat.pow_add] at hpow
    exact absurd (Nat.le_of_mul_le_mul_right hpow f.one_pos) (Nat.not_le.2 hn)

theorem Narrows.whole? {x : Binary g} {y : Binary f} (h : y.Narrows x) (hwithin : f.Within g)
    (hf : f.Spacious) {n : Int} (hn : n.natAbs ≤ 2 ^ f.precision) (hx : x.whole? = some n) :
    y.whole? = some n := by
  obtain ⟨sign, hfits, heq, hsigned⟩ := whole?_eq_some_iff.1 hx
  exact whole?_eq_some_iff.2 ⟨sign, hf.fits hn, h.of_whole hwithin hf hn heq, hsigned⟩

theorem ofNat_zero : (ofNat 0 : Binary f) = zero false := by
  rw [ofNat, Nat.zero_mul, ofQuotient_of_fits f.fits_zero, zero]

theorem ofNat_ne_negative_zero (n : Nat) : (ofNat n : Binary f) ≠ zero true := by
  intro h
  obtain ⟨hsign, -⟩ := of_ofQuotient_eq_finite h
  cases hsign

/-- A whole number that is not below zero is the one nearest to its integer, or a negative
zero. -/
theorem eq_ofNat_or_of_whole? {x : Binary f} {n : Int} (h : x.whole? = some n) (hn : 0 ≤ n) :
    x = ofNat n.toNat ∨ (n = 0 ∧ x = zero true) := by
  by_cases hzero : n = 0
  · subst hzero
    obtain ⟨negative, hfits, rfl, -⟩ := whole?_eq_some_iff.1 h
    have heq : (finite negative (Int.natAbs 0 * f.one) hfits : Binary f) = zero negative :=
      finite_congr (Nat.zero_mul _)
    rw [heq, Int.toNat_zero, ofNat_zero]
    cases negative with
    | true => exact .inr ⟨rfl, rfl⟩
    | false => exact .inl rfl
  · refine .inl ?_
    rw [eq_ofInt_of_whole? h hzero, ← ofInt_natCast, Int.toNat_of_nonneg hn]

end Binary

/-! ## Values -/

namespace Value

/-- The whole number that a floating point value is. -/
def wholeFloat? : Value → Option Int
  | f32 x => x.whole?
  | abstractFloat x => x.whole?
  | i32 _ | u32 _ | abstractInt _ => none

/-- Whether a floating point value is a number that was read, rounded to its own format. -/
def IsFloatOf (x : Double) : Value → Prop
  | f32 y => y.Narrows x
  | abstractFloat y => y = x
  | i32 _ | u32 _ | abstractInt _ => False

/-- The zeros that can be told from zero only by their sign. -/
def IsNegativeZero (v : Value) : Prop :=
  v = f32 (.zero true) ∨ v = abstractFloat (.zero true)

instance (v : Value) : Decidable v.IsNegativeZero := inferInstanceAs (Decidable (_ ∨ _))

variable {v w : Value} {x : Double} {n : Int} {ty : Scalar}

theorem not_isNegativeZero_of_integer? (h : v.integer? = some n) : ¬ v.IsNegativeZero := by
  rintro (rfl | rfl)
  · cases h
  · cases h

/-- Only the negative zero of its format is one. -/
theorem not_isNegativeZero_f32 {x : Single} (h : x ≠ .zero true) : ¬ (f32 x).IsNegativeZero := by
  rintro (hzero | hzero)
  · exact h (f32.inj hzero)
  · cases hzero

theorem not_isNegativeZero_abstractFloat (h : x ≠ .zero true) : ¬ (abstractFloat x).IsNegativeZero := by
  rintro (hzero | hzero)
  · cases hzero
  · exact h (abstractFloat.inj hzero)

theorem IsFloatOf.wholeFloat? (h : v.IsFloatOf x) (hx : x.whole? = some n)
    (hn : n.natAbs ≤ 2 ^ 24) : v.wholeFloat? = some n := by
  cases v with
  | f32 y => exact h.whole? Format.single_within_double Format.single_spacious hn hx
  | abstractFloat y =>
    obtain rfl : y = x := h
    exact hx
  | _ => cases h

theorem IsFloatOf.negate (h : v.IsFloatOf x) (hw : UnaryOp.negate.apply v = .ok w) :
    w.IsFloatOf (-x) := by
  cases v with
  | f32 y =>
    obtain rfl := Except.ok.inj hw
    exact Binary.Narrows.neg h
  | abstractFloat y =>
    obtain rfl := Except.ok.inj hw
    obtain rfl : y = x := h
    rfl
  | _ => cases h

theorem IsFloatOf.concretize? (h : v.IsFloatOf x) (hw : v.concretize? ty = some w) :
    w.IsFloatOf x := by
  unfold Value.concretize? at hw
  split at hw
  · rwa [← Option.some.inj hw]
  · cases v with
    | f32 y => cases hw
    | abstractFloat y =>
      obtain rfl : y = x := h
      cases ty with
      | f32 =>
        obtain rfl := Option.some.inj hw
        exact Binary.narrows_convert Format.single_within_double y
      | _ => cases hw
    | _ => cases h

/-- An abstract integer becomes the float of its number. -/
theorem wholeFloat?_of_concretize? (hty : ty.isFloat = true) (hv : v.integer? = some n)
    (hn : n.natAbs ≤ 2 ^ 24) (hw : v.concretize? ty = some w) : w.wholeFloat? = some n := by
  have hwide : 2 ^ 24 ≤ 2 ^ Format.double.precision := by decide
  cases v with
  | abstractInt word =>
    obtain rfl := Option.some.inj hv
    cases ty with
    | f32 =>
      obtain rfl : f32 (.ofInt word.toInt) = w := Option.some.inj hw
      rw [wholeFloat?, Binary.whole?_ofInt Format.single_spacious hn]
    | abstractFloat =>
      obtain rfl : abstractFloat (.ofInt word.toInt) = w := Option.some.inj hw
      rw [wholeFloat?, Binary.whole?_ofInt Format.double_spacious (Nat.le_trans hn hwide)]
    | _ => cases hty
  | i32 word =>
    cases ty with
    | f32 => cases hw
    | abstractFloat => cases hw
    | _ => cases hty
  | u32 word =>
    cases ty with
    | f32 => cases hw
    | abstractFloat => cases hw
    | _ => cases hty
  | f32 y => cases hv
  | abstractFloat y => cases hv

/-- A whole number of a float type that is not negative is the value of its magnitude, or a
negative zero. -/
theorem ofMagnitude?_of_wholeFloat? (hv : v.wholeFloat? = some n) (hscalar : v.scalar = ty)
    (hlow : 0 ≤ n) (hhigh : n ≤ 2 ^ 24) :
    (¬ v.IsNegativeZero ∧ ofMagnitude? (.ofNat n.toNat) ty = some v) ∨
      (v.IsNegativeZero ∧ ofMagnitude? (.ofNat n.toNat) ty = zero? ty) := by
  have hnat : (UInt32.ofNat n.toNat).toNat = n.toNat :=
    UInt32.toNat_ofNat_of_lt' (by rw [UInt32.size]; omega)
  subst hscalar
  cases v with
  | f32 y =>
    have hvalue : ofMagnitude? (.ofNat n.toNat) .f32 = some (f32 (.ofNat n.toNat)) := by
      rw [ofMagnitude?, hnat]
    rcases Binary.eq_ofNat_or_of_whole? hv hlow with hy | ⟨rfl, hy⟩
    · rw [hy]
      exact .inl ⟨not_isNegativeZero_f32 (Binary.ofNat_ne_negative_zero _), hvalue⟩
    · rw [Int.toNat_zero, Binary.ofNat_zero] at hvalue
      exact .inr ⟨.inl (by rw [hy]), hvalue⟩
  | abstractFloat y =>
    have hvalue : ofMagnitude? (.ofNat n.toNat) .abstractFloat =
        some (abstractFloat (.ofNat n.toNat)) := by
      rw [ofMagnitude?, hnat]
    rcases Binary.eq_ofNat_or_of_whole? hv hlow with hy | ⟨rfl, hy⟩
    · rw [hy]
      exact .inl ⟨not_isNegativeZero_abstractFloat (Binary.ofNat_ne_negative_zero _), hvalue⟩
    · rw [Int.toNat_zero, Binary.ofNat_zero] at hvalue
      exact .inr ⟨.inr (by rw [hy]), hvalue⟩
  | _ => cases hv

/-- A text that both readers take denotes one decimal, which each rounds to its format. -/
theorem exists_decimal_of_ofFloatChars? {cs : List Char} (hv : ofFloatChars? cs = some v)
    (hx : Literal.ofFloatChars? cs = some x) :
    ∃ decimal, x = .ofNumeral decimal ∧ x.isFinite = true ∧
      (v = f32 (.ofNumeral decimal) ∨ v = abstractFloat (.ofNumeral decimal)) := by
  unfold Literal.ofFloatChars? at hx
  dsimp only at hx
  split at hx
  · cases hx
  · obtain ⟨hread, hfinite⟩ := Option.filter_eq_some_iff.1 hx
    obtain ⟨decimal, hdecimal, rfl⟩ := Option.map_eq_some_iff.1 hread
    refine ⟨decimal, rfl, hfinite, ?_⟩
    unfold Literal.withoutFloatSuffix at hdecimal
    unfold ofFloatChars? at hv
    cases hsingle : Numeral.stripLast? 'f' cs with
    | some body =>
      rw [hsingle] at hv hdecimal
      obtain ⟨y, hy, rfl⟩ := Option.map_eq_some_iff.1 hv
      obtain ⟨other, hother, rfl⟩ := Option.map_eq_some_iff.1 hy
      rw [Option.some.inj (hother.symm.trans hdecimal)]
      exact .inl rfl
    | none =>
      rw [hsingle] at hv hdecimal
      dsimp only at hv
      split at hv
      · cases hv
      · rename_i hhalf
        have hnone : Numeral.stripLast? 'h' cs = none := if_neg hhalf
        rw [hnone] at hdecimal
        obtain ⟨y, hy, rfl⟩ := Option.map_eq_some_iff.1 hv
        obtain ⟨other, hother, rfl⟩ := Option.map_eq_some_iff.1 hy
        rw [Option.some.inj (hother.symm.trans hdecimal)]
        exact .inr rfl

/-- A text that both readers take denotes one number. -/
theorem isFloatOf_of_ofFloatChars? {cs : List Char} (hv : ofFloatChars? cs = some v)
    (hx : Literal.ofFloatChars? cs = some x) : v.IsFloatOf x := by
  obtain ⟨decimal, rfl, -, rfl | rfl⟩ := exists_decimal_of_ofFloatChars? hv hx
  · exact Binary.narrows_ofNumeral Format.single_finelyWithin_double decimal
  · rfl

end Value

/-! ## Signed literals -/

theorem UnaryOp.integer?_eq_none_of_apply {op : UnaryOp} {v w : Value} (h : op.apply v = .ok w)
    (hw : w.integer? = none) : v.integer? = none := by
  cases op
  cases v with
  | f32 x => rfl
  | abstractFloat x => rfl
  | u32 n => cases h
  | i32 n =>
    obtain rfl := Except.ok.inj h
    cases hw
  | abstractInt n =>
    obtain ⟨word, -, rfl⟩ := Value.exact_eq_ok_iff.1 h
    cases hw

namespace Expr

variable {e : Expr} {b : Bindings} {v w : Value} {x : Double} {n : Int} {ty : Scalar}

/-- The value of a signed literal that is no integer is the number that is read from it. -/
theorem isFloatOf_of_read (h : e.isSignedLiteral = true) (hv : e.eval b = .ok v)
    (hx : Literal.read e = .ok x) (hfloat : v.integer? = none) : v.IsFloatOf x := by
  fun_induction isSignedLiteral e generalizing v x with
  | case1 text =>
    obtain ⟨m, hm, -⟩ := Literal.rounds_of_ofIntChars? (ofLiteral_eq_ok hv) (ofText_eq_ok hx)
    rw [hfloat] at hm
    cases hm
  | case2 text => exact Value.isFloatOf_of_ofFloatChars? (ofLiteral_eq_ok hv) (ofText_eq_ok hx)
  | case3 target ih =>
    obtain ⟨w, hw, happly⟩ := eval_unary_eq_ok hv
    obtain ⟨y, hread, rfl⟩ := read_neg_eq_ok hx
    exact (ih h hw hread (UnaryOp.integer?_eq_none_of_apply happly hfloat)).negate happly
  | case4 inner ih =>
    rw [eval_paren] at hv
    exact ih h hv hx hfloat
  | case5 => cases h

/-- The integer that a signed literal is worth is the one that is read from it, but for the
least signed word, which is also what its negation wraps to. -/
theorem integer?_eq_of_read (h : e.isSignedLiteral = true) (hv : e.eval b = .ok v)
    (hx : Literal.read e = .ok x) (hwhole : x.whole? = some n)
    (hn : n.natAbs < 2 ^ Format.double.precision) {m : Int} (hm : v.integer? = some m) :
    m = n ∨ (v = .i32 Int32.minValue ∧ -m = n) := by
  rcases rounds_of_read h hv hx hm with hrounds | ⟨hleast, hrounds⟩
  · exact .inl (hrounds.eq_of_whole? Format.double_spacious hwhole hn)
  · exact .inr ⟨hleast, hrounds.eq_of_whole? Format.double_spacious hwhole hn⟩

/-- A signed literal that is read as an integer of a type is worth it, as a value of the
type. -/
theorem integer?_of_read (h : e.isSignedLiteral = true) (hw : e.eval b = .ok w)
    (hreads : Literal.ReadsAs e n) (htakes : ty.Takes n) (hv : w.concretize? ty = some v) :
    v.integer? = some n := by
  obtain ⟨x, hread, hx⟩ := hreads
  have hlt := htakes.natAbs_lt
  have hwide : 2 ^ 32 ≤ 2 ^ Format.double.precision := by decide
  obtain ⟨m, hm, hvm⟩ := Value.integer?_of_concretize?_eq htakes.1 hv
  rcases integer?_eq_of_read h hw hread hx (Nat.lt_of_lt_of_le hlt hwide) hm with rfl | ⟨hleast, hneg⟩
  · exact hvm
  · -- what the least word wrapped from is no signed word
    rw [hleast] at hm hv
    obtain rfl := Option.some.inj hm
    have hmin := Int32.toInt_minValue
    have hmax := Int32.toInt_maxValue
    obtain ⟨hinteger, -, hhigh⟩ := htakes
    cases ty with
    | i32 =>
      simp only [Scalar.integerRange] at hhigh
      omega
    | u32 => cases hv
    | abstractInt => cases hv
    | _ => cases hinteger

/-- A signed literal that is read as a whole number of single precision is worth it, as a
value of a float type. -/
theorem wholeFloat?_of_read (h : e.isSignedLiteral = true) (hw : e.eval b = .ok w)
    (hreads : Literal.ReadsAs e n) (hn : n.natAbs ≤ 2 ^ 24) (hty : ty.isFloat = true)
    (hv : w.concretize? ty = some v) : v.wholeFloat? = some n := by
  obtain ⟨x, hread, hx⟩ := hreads
  have hwide : 2 ^ 24 < 2 ^ Format.double.precision := by decide
  cases hinteger : w.integer? with
  | none =>
    exact ((isFloatOf_of_read h hw hread hinteger).concretize? hv).wholeFloat? hx hn
  | some m =>
    rcases integer?_eq_of_read h hw hread hx (Nat.lt_of_le_of_lt hn hwide) hinteger with
      rfl | ⟨hleast, hneg⟩
    · exact Value.wholeFloat?_of_concretize? hty hinteger hn hv
    · have hmin := Int32.toInt_minValue
      rw [hleast] at hinteger
      obtain rfl := Option.some.inj hinteger
      omega

end Expr

/-! ## Both forms of a literal -/

namespace Palette

open Synth

variable {σ : Type} [WordSource σ] {J : Type} [Membership Uniform J] [ShaderJob J]
variable {palette : Palette J} {depth : Nat} {ty : Scalar} {e : Expr} {source : σ} {k : Disguise}
  {b b' : Bindings} {v w : Value}

/-- Both forms of a disguised literal are worth what the literal is worth, as a value of the
type asked for, bit for bit unless that is a negative zero. Of a negative zero they are
worth the positive one. -/
theorem literal_preserved (hliteral : e.isSignedLiteral = true) (hw : e.eval b' = .ok w)
    (hv : w.concretize? ty = some v) (huniforms : ∀ u ∈ palette.uniforms, u.WellFormed)
    (hb : b.Holds palette.uniforms)
    (h : outcome (palette.disguiseLiteral depth e (.scalar ty)) source = .ok k) :
    (¬ v.IsNegativeZero → k.literal.eval b = .ok v ∧ k.rewritten.eval b = .ok v) ∧
    (v.IsNegativeZero → ∃ z, Value.zero? ty = some z ∧ k.literal.eval b = .ok z ∧
      k.rewritten.eval b = .ok z) := by
  have hserves := hb.serves huniforms ty
  have hscalar := Value.scalar_of_concretize? hv
  obtain ⟨_, n, hshape, hreads, hcases⟩ := of_disguiseLiteral_ok h
  obtain rfl := Shape.scalar.inj hshape
  rcases hcases with ⟨htakes, hk⟩ | ⟨hfloat, hlow, hhigh, hk⟩
  · have hvn := Expr.integer?_of_read hliteral hw hreads htakes hv
    obtain ⟨u, huscalar, hu, hforms⟩ := eval_of_disguiseInteger hserves hk
    rw [htakes.toInt_ofInt] at hu
    rw [Value.eq_of_integer? (huscalar.trans hscalar.symm) hu hvn] at hforms
    refine ⟨fun _ => hforms, ?_⟩
    rintro (rfl | rfl)
    · cases hvn
    · cases hvn
  · have hvn := Expr.wholeFloat?_of_read hliteral hw hreads (by omega) hfloat hv
    obtain ⟨u, hu, hforms⟩ :=
      eval_of_disguiseMagnitude hfloat (ofNat_le_preciseLimit hlow hhigh).1 hserves hk
    rcases Value.ofMagnitude?_of_wholeFloat? hvn hscalar hlow hhigh with
      ⟨hnonzero, hvalue⟩ | ⟨hzero, hvalue⟩
    · rw [hu] at hvalue
      obtain rfl := Option.some.inj hvalue
      exact ⟨fun _ => hforms, fun hzero => absurd hzero hnonzero⟩
    · rw [hu] at hvalue
      exact ⟨fun hnonzero => absurd hzero hnonzero, fun _ => ⟨u, hvalue.symm, hforms⟩⟩

/-- A literal that rounds once in each format, beside a uniform with a fraction. -/
theorem literal_preserved_rounded :
    ∃ k v, outcome (disguiseLiteral ⟨2, .default, [Uniform.sample]⟩ 0
        (.floatLiteral "11.99999999999999999999f") (.scalar .f32)) (ChaCha.ofSeed 0) = .ok k ∧
      (Expr.floatLiteral "11.99999999999999999999f").eval .empty = .ok v ∧
      k.literal.eval (.ofUniforms [.sample]) = .ok v ∧
      k.rewritten.eval (.ofUniforms [.sample]) = .ok v := by
  have hrun : (outcome (disguiseLiteral ⟨2, .default, [Uniform.sample]⟩ 0
      (.floatLiteral "11.99999999999999999999f") (.scalar .f32)) (ChaCha.ofSeed 0)).isOk = true := by
    decide +kernel
  obtain ⟨k, hk⟩ := exists_ok hrun
  have hw : (Expr.floatLiteral "11.99999999999999999999f").eval .empty =
      .ok (.f32 (.ofNat 12)) := by decide +kernel
  have hv : (Value.f32 (.ofNat 12)).concretize? .f32 = some (.f32 (.ofNat 12)) := by
    decide +kernel
  have hnonzero : ¬ (Value.f32 (.ofNat 12)).IsNegativeZero := by decide +kernel
  exact ⟨k, _, hk, hw, (literal_preserved rfl hw hv Uniform.allWellFormed_sample.each
    (Bindings.holds_ofUniforms Uniform.allWellFormed_sample) hk).1 hnonzero⟩

/-- A negative zero loses its sign. -/
theorem negative_zero_not_preserved :
    (Expr.floatLiteral "0.0").neg.isSignedLiteral = true ∧
      (Expr.floatLiteral "0.0").neg.eval .empty = .ok (.abstractFloat (.zero true)) ∧
      (Value.abstractFloat (.zero true)).concretize? .f32 = some (.f32 (.zero true)) ∧
      ∃ k, outcome (disguiseLiteral (⟨0, .default, []⟩ : Palette) 0 (Expr.floatLiteral "0.0").neg
          (.scalar .f32)) (ChaCha.ofSeed 0) = .ok k ∧
        k.literal.eval .empty = .ok (.f32 (.zero false)) ∧
        k.literal.eval .empty ≠ .ok (.f32 (.zero true)) :=
  ⟨rfl, by decide +kernel, by decide +kernel, ⟨.floatLiteral "0f", .floatLiteral "0f"⟩,
    by decide +kernel, by decide +kernel, by decide +kernel⟩

end Palette

end Camouflage
