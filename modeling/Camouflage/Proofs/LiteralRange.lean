import Camouflage.Proofs.LiteralValues

/-!
# Which integers a type has literals for

A type has a literal for an integer if one of its values is that integer
(`Scalar.Contains`), and the literal is worth it (`Literal.WritesExactly`). Whether a float
type has the integer is found out by rounding it and clamping the result to a word. Rounding
gives a whole number again (`Format.one_dvd_nearest`), so the integer comes back only if
nothing was rounded.

It does so with one exception, `Literal.writesExactly_except_ends`. The greatest word is
rounded to the power of two above it, which is clamped to the greatest word. The integers have
an exception at the other end: the least abstract integer is written as the negation of a
literal that is out of range.
-/

namespace Camouflage

/-! ## Rounded integers -/

namespace Format

/-- Around a whole number the spacing divides it or is whole itself, so it is rounded to a
whole number. -/
theorem one_dvd_nearest (f : Format) (n : Nat) : f.one ∣ f.nearest (n * f.one) 1 := by
  simp only [nearest, Nat.div_one, Nat.one_mul]
  rcases Nat.le_total (f.shift (n * f.one)) f.fractionBits with hfine | hcoarse
  · have hdvd : f.spacing (n * f.one) ∣ n * f.one :=
      Nat.dvd_mul_left_of_dvd (Nat.pow_dvd_pow 2 hfine) n
    have hround := roundQuotient_mul (n * f.one / f.spacing (n * f.one)) (f.spacing_pos (n * f.one))
    rw [Nat.div_mul_cancel hdvd] at hround
    rw [hround, Nat.div_mul_cancel hdvd]
    exact Nat.dvd_mul_left f.one n
  · exact Nat.dvd_mul_left_of_dvd (Nat.pow_dvd_pow 2 hcoarse) _

/-- A power of two within the range fits. -/
theorem fits_two_pow {f : Format} {k : Nat} (hk : k + f.fractionBits < f.precision + f.maxShift) :
    f.Fits (2 ^ k * f.one) := by
  have hscaled : 2 ^ k * f.one = 1 * 2 ^ (k + f.fractionBits) := by
    rw [one_eq_two_pow, ← Nat.pow_add, Nat.one_mul]
  rw [hscaled]
  refine fits_of_scaled Nat.one_le_two_pow ?_
  rw [Nat.one_mul]
  exact Nat.pow_lt_pow_right (by omega) hk

theorem single_fits_least : single.Fits (2 ^ 63 * single.one) :=
  fits_two_pow (f := single) (k := 63) (by decide)

theorem double_fits_least : double.Fits (2 ^ 63 * double.one) :=
  fits_two_pow (f := double) (k := 63) (by decide)

end Format

namespace Binary

variable {f : Format} {n : Int}

theorem exists_whole?_ofInt (h : (ofInt n : Binary f).isFinite = true) :
    ∃ m, (ofInt n : Binary f).whole? = some m := by
  have hdvd := f.one_dvd_nearest n.natAbs
  refine isWhole_iff.1 ?_
  unfold ofInt ofQuotient ofUnits at h ⊢
  split
  · exact beq_iff_eq.2 (Nat.mod_eq_zero_of_dvd hdvd)
  · rename_i hfits
    rw [dif_neg hfits] at h
    cases h

theorem neg_ofNat_natAbs (hn : n < 0) : -(ofNat n.natAbs : Binary f) = ofInt n := by
  rw [ofNat, neg_ofQuotient, ofInt, decide_eq_true hn]
  rfl

theorem ofNat_natAbs (hn : 0 ≤ n) : (ofNat n.natAbs : Binary f) = ofInt n := by
  rw [← ofInt_natCast, Int.natAbs_of_nonneg hn]

/-- Rounding an integer does not make a negative zero of it. -/
theorem ofInt_ne_negative_zero (n : Int) : (ofInt n : Binary f) ≠ zero true := by
  intro h
  obtain ⟨hsign, hnearest⟩ := of_ofQuotient_eq_finite h
  have hneg : n < 0 := of_decide_eq_true hsign
  have hone : 2 ^ f.fractionBits ≤ n.natAbs * f.one / 1 := by
    rw [Nat.div_one]
    exact Nat.le_mul_of_pos_left f.one (by omega)
  have hpos := Format.two_pow_le_nearest (f := f) hone
  rw [hnearest] at hpos
  exact Nat.not_le.2 (Nat.two_pow_pos _) hpos

/-- An integer is a number of a format if rounding does not change it. -/
theorem exists_whole?_eq_some_iff :
    (∃ x : Binary f, x.whole? = some n) ↔ (ofInt n : Binary f).whole? = some n := by
  constructor
  · rintro ⟨x, hx⟩
    obtain ⟨negative, hfits, -⟩ := whole?_eq_some_iff.1 hx
    exact (rounds_ofInt n).whole?_of_fits hfits
  · exact fun h => ⟨_, h⟩

end Binary

namespace Literal

variable {f : Format} {word : Int64}

/-- Whether a word survives tells whether it is a number of the format, unless it is the
greatest: what that is rounded to may be clamped back to it. -/
theorem survives_iff (hleast : f.Fits (2 ^ 63 * f.one)) (hword : word ≠ Int64.maxValue) :
    survives f word.toInt = true ↔ (Binary.ofInt word.toInt : Binary f).whole? = some word.toInt := by
  have hmin := Int64.toInt_minValue
  have hmax := Int64.toInt_maxValue
  have hlow := word.le_toInt
  have hhigh := word.toInt_lt
  have hbelow : word.toInt ≠ Int64.maxValue.toInt := fun h => hword (Int64.toInt_inj.1 h)
  rw [survives, beq_iff_eq]
  constructor
  · intro hclamped
    by_cases hlast : word.toInt = Int64.minValue.toInt
    · -- the least word is a power of two, which no format rounds
      refine (Binary.rounds_ofInt _).whole?_of_fits ?_
      rwa [hlast]
    · cases hrounded : (Binary.ofInt word.toInt : Binary f) with
      | nan => exact absurd hrounded (Binary.ofUnits_ne_nan _ _)
      | infinite negative =>
        rw [hrounded, Binary.toIntClamped] at hclamped
        split at hclamped
        · exact absurd hclamped.symm hlast
        · exact absurd hclamped.symm hbelow
      | finite negative units hfits =>
        obtain ⟨m, hm⟩ := Binary.exists_whole?_ofInt (f := f) (n := word.toInt) (by rw [hrounded]; rfl)
        rw [Binary.toIntClamped_eq_of_whole? hm] at hclamped
        obtain rfl : m = word.toInt := by omega
        rw [← hrounded]
        exact hm
  · exact fun hwhole => Binary.toIntClamped_of_whole? hwhole (by omega) (by omega)

/-- A signed float literal is worth the number that its integer is rounded to. -/
theorem eval_signed_float (suffix : String) (wrap : Binary f → Value)
    (hread : ∀ m, Value.ofFloatChars? (Numeral.ofNat m ++ suffix.toList) = some (wrap (.ofNat m)))
    (hnegate : ∀ x, UnaryOp.negate.apply (wrap x) = .ok (wrap (-x))) (n : Int) (b : Bindings) :
    (signed n suffix .floatLiteral).eval b = .ok (wrap (.ofInt n)) := by
  unfold signed
  split
  · rename_i hneg
    rw [Expr.eval_unary (eval_floatLiteral (hread _)), hnegate, Binary.neg_ofNat_natAbs hneg]
  · rename_i hnonneg
    rw [eval_floatLiteral (hread _), Binary.ofNat_natAbs (Int.not_lt.1 hnonneg)]

theorem write_f32 (word : Int64) :
    write word .f32 =
      if survives .single word.toInt then .ok (signed word.toInt "f" .floatLiteral)
      else .error (.outOfRange (.ofInt word.toInt) .f32) := by
  rw [write]

theorem write_abstractFloat (word : Int64) :
    write word .abstractFloat =
      if survives .double word.toInt then .ok (signed word.toInt ".0" .floatLiteral)
      else .error (.outOfRange (.ofInt word.toInt) .abstractFloat) := by
  rw [write]

theorem eval_signed_single (n : Int) (b : Bindings) :
    (signed n "f" .floatLiteral).eval b = .ok (.f32 (.ofInt n)) :=
  eval_signed_float "f" .f32 ofFloatChars?_single (fun _ => rfl) n b

theorem eval_signed_double (n : Int) (b : Bindings) :
    (signed n ".0" .floatLiteral).eval b = .ok (.abstractFloat (.ofInt n)) :=
  eval_signed_float ".0" .abstractFloat ofFloatChars?_double (fun _ => rfl) n b

end Literal

/-! ## Exact literals -/

namespace Value

/-- The integer that a value is, if it is one. -/
def whole? (v : Value) : Option Int := v.integer?.or v.wholeFloat?

theorem whole?_of_integer? {v : Value} {n : Int} (h : v.integer? = some n) : v.whole? = some n := by
  rw [whole?, h, Option.some_or]

theorem whole?_f32 (x : Single) : (f32 x).whole? = x.whole? := rfl

theorem whole?_abstractFloat (x : Double) : (abstractFloat x).whole? = x.whole? := rfl

end Value

/-- Whether an integer is a value of a type. -/
def Scalar.Contains (ty : Scalar) (n : Int) : Prop := ∃ v : Value, v.scalar = ty ∧ v.whole? = some n

namespace Scalar

variable {n : Int}

theorem contains_i32_iff :
    Scalar.i32.Contains n ↔ Int32.minValue.toInt ≤ n ∧ n ≤ Int32.maxValue.toInt := by
  have hmin := Int32.toInt_minValue
  have hmax := Int32.toInt_maxValue
  constructor
  · rintro ⟨v, hscalar, hv⟩
    cases v with
    | i32 w =>
      obtain rfl : w.toInt = n := Option.some.inj hv
      have hlow := w.le_toInt
      have hhigh := w.toInt_lt
      omega
    | _ => cases hscalar
  · rintro ⟨hlow, hhigh⟩
    exact ⟨.i32 (.ofInt n), rfl, congrArg some (Int32.toInt_ofInt_of_le (by omega) (by omega))⟩

theorem contains_u32_iff : Scalar.u32.Contains n ↔ 0 ≤ n ∧ n < UInt32.size := by
  have hsize : UInt32.size = 2 ^ 32 := rfl
  constructor
  · rintro ⟨v, hscalar, hv⟩
    cases v with
    | u32 w =>
      obtain rfl : (w.toNat : Int) = n := Option.some.inj hv
      have hlt := w.toNat_lt
      omega
    | _ => cases hscalar
  · rintro ⟨hlow, hhigh⟩
    have hnat : (UInt32.ofNat n.toNat).toNat = n.toNat := UInt32.toNat_ofNat_of_lt' (by omega)
    refine ⟨.u32 (.ofNat n.toNat), rfl, congrArg some ?_⟩
    rw [hnat, Int.toNat_of_nonneg hlow]

theorem contains_abstractInt (word : Int64) : Scalar.abstractInt.Contains word.toInt :=
  ⟨.abstractInt word, rfl, rfl⟩

theorem contains_f32_iff : Scalar.f32.Contains n ↔ (Binary.ofInt n : Single).whole? = some n := by
  rw [← Binary.exists_whole?_eq_some_iff]
  constructor
  · rintro ⟨v, hscalar, hv⟩
    cases v with
    | f32 x => exact ⟨x, hv⟩
    | _ => cases hscalar
  · rintro ⟨x, hx⟩
    exact ⟨.f32 x, rfl, hx⟩

theorem contains_abstractFloat_iff :
    Scalar.abstractFloat.Contains n ↔ (Binary.ofInt n : Double).whole? = some n := by
  rw [← Binary.exists_whole?_eq_some_iff]
  constructor
  · rintro ⟨v, hscalar, hv⟩
    cases v with
    | abstractFloat x => exact ⟨x, hv⟩
    | _ => cases hscalar
  · rintro ⟨x, hx⟩
    exact ⟨.abstractFloat x, rfl, hx⟩

end Scalar

namespace Literal

variable {word : Int64} {ty : Scalar}

/-- Whether a type has a literal for a word just if it contains it, and refuses it otherwise; what
is written is worth the word, and zero is no negative one. -/
structure WritesExactly (word : Int64) (ty : Scalar) : Prop where
  written : ty.Contains word.toInt → ∃ e, write word ty = .ok e
  refused : ¬ ty.Contains word.toInt → write word ty = .error (.outOfRange (.ofInt word.toInt) ty)
  worth : ∀ e, write word ty = .ok e →
    ∃ v : Value, v.scalar = ty ∧ v.whole? = some word.toInt ∧ ¬ v.IsNegativeZero ∧
      ∀ b, e.eval b = .ok v

namespace WritesExactly

theorem of_write {e : Expr} {v : Value} (hwrite : write word ty = .ok e) (hscalar : v.scalar = ty)
    (hv : v.whole? = some word.toInt) (hsign : ¬ v.IsNegativeZero) (heval : ∀ b, e.eval b = .ok v) :
    WritesExactly word ty where
  written _ := ⟨e, hwrite⟩
  refused hnone := absurd ⟨v, hscalar, hv⟩ hnone
  worth e' hwrite' := by
    obtain rfl := Except.ok.inj (hwrite.symm.trans hwrite')
    exact ⟨v, hscalar, hv, hsign, heval⟩

theorem of_refuse (hnone : ¬ ty.Contains word.toInt)
    (hwrite : write word ty = .error (.outOfRange (.ofInt word.toInt) ty)) :
    WritesExactly word ty where
  written hcontains := absurd hcontains hnone
  refused _ := hwrite
  worth e hwrite' := by
    rw [hwrite] at hwrite'
    cases hwrite'

theorem of_takes (h : ty.Takes word.toInt) : WritesExactly word ty := by
  obtain ⟨e, v, hwrite, hscalar, hv, heval⟩ := h.exists_write
  exact of_write hwrite hscalar (Value.whole?_of_integer? hv)
    (Value.not_isNegativeZero_of_integer? hv) heval

theorem i32 (word : Int64) : WritesExactly word .i32 := by
  by_cases hrange : Int32.minValue.toInt ≤ word.toInt ∧ word.toInt ≤ Int32.maxValue.toInt
  · exact of_takes ⟨rfl, hrange⟩
  · refine of_refuse (Scalar.contains_i32_iff.not.2 hrange) ?_
    simp only [write]
    rw [if_pos (by omega)]

theorem u32 (word : Int64) : WritesExactly word .u32 := by
  by_cases hrange : 0 ≤ word.toInt ∧ word.toInt < UInt32.size
  · exact of_takes ⟨rfl, hrange.1, Int.le_sub_one_of_lt hrange.2⟩
  · refine of_refuse (Scalar.contains_u32_iff.not.2 hrange) ?_
    simp only [write]
    rw [if_pos (by omega)]

theorem abstractInt (hword : word ≠ Int64.minValue) : WritesExactly word .abstractInt := by
  have hlow : Int64.minValue.toInt < word.toInt := by
    have hmin := Int64.toInt_minValue
    have hle := word.le_toInt
    have hne : word.toInt ≠ Int64.minValue.toInt := fun h => hword (Int64.toInt_inj.1 h)
    omega
  obtain ⟨e, hwrite, heval⟩ := write_abstractInt hlow
  exact of_write hwrite rfl rfl (Value.not_isNegativeZero_of_integer? rfl) heval

theorem f32 (hword : word ≠ Int64.maxValue) : WritesExactly word .f32 := by
  have hsurvives := survives_iff Format.single_fits_least hword
  by_cases hwhole : (Binary.ofInt word.toInt : Single).whole? = some word.toInt
  · have hwrite := (write_f32 word).trans (if_pos (hsurvives.2 hwhole))
    exact of_write hwrite rfl ((Value.whole?_f32 _).trans hwhole)
      (Value.not_isNegativeZero_f32 (Binary.ofInt_ne_negative_zero _)) (eval_signed_single _)
  · exact of_refuse (Scalar.contains_f32_iff.not.2 hwhole)
      ((write_f32 word).trans (if_neg (hsurvives.not.2 hwhole)))

theorem abstractFloat (hword : word ≠ Int64.maxValue) : WritesExactly word .abstractFloat := by
  have hsurvives := survives_iff Format.double_fits_least hword
  by_cases hwhole : (Binary.ofInt word.toInt : Double).whole? = some word.toInt
  · have hwrite := (write_abstractFloat word).trans (if_pos (hsurvives.2 hwhole))
    exact of_write hwrite rfl ((Value.whole?_abstractFloat _).trans hwhole)
      (Value.not_isNegativeZero_abstractFloat (Binary.ofInt_ne_negative_zero _))
      (eval_signed_double _)
  · exact of_refuse (Scalar.contains_abstractFloat_iff.not.2 hwhole)
      ((write_abstractFloat word).trans (if_neg (hsurvives.not.2 hwhole)))

end WritesExactly

/-! ## The ends of the range -/

theorem whole?_ofInt_greatest :
    (Binary.ofInt Int64.maxValue.toInt : Single).whole? = some (2 ^ 63) ∧
      (Binary.ofInt Int64.maxValue.toInt : Double).whole? = some (2 ^ 63) := by
  decide +kernel

/-- No float is the greatest word. -/
theorem not_contains_greatest (hty : ty.isFloat = true) :
    ¬ ty.Contains Int64.maxValue.toInt := by
  have hne : some (2 ^ 63 : Int) ≠ some Int64.maxValue.toInt := by decide
  cases ty with
  | f32 => exact Scalar.contains_f32_iff.not.2 fun h => hne (whole?_ofInt_greatest.1.symm.trans h)
  | abstractFloat =>
    exact Scalar.contains_abstractFloat_iff.not.2 fun h =>
      hne (whole?_ofInt_greatest.2.symm.trans h)
  | _ => cases hty

/-- The greatest word has a float literal all the same, which is worth the next integer. -/
theorem exists_write_greatest (hty : ty.isFloat = true) :
    ∃ (e : Expr) (v : Value), write Int64.maxValue ty = .ok e ∧ v.scalar = ty ∧
      v.whole? = some (2 ^ 63) ∧ ∀ b, e.eval b = .ok v := by
  cases ty with
  | f32 =>
    have hsurvives : survives .single Int64.maxValue.toInt = true := by decide +kernel
    exact ⟨_, _, (write_f32 _).trans (if_pos hsurvives), rfl, (Value.whole?_f32 _).trans whole?_ofInt_greatest.1,
      eval_signed_single _⟩
  | abstractFloat =>
    have hsurvives : survives .double Int64.maxValue.toInt = true := by decide +kernel
    exact ⟨_, _, (write_abstractFloat _).trans (if_pos hsurvives), rfl,
      (Value.whole?_abstractFloat _).trans whole?_ofInt_greatest.2, eval_signed_double _⟩
  | _ => cases hty

/-- The magnitude of the least word is no abstract integer. -/
theorem eval_write_least :
    ∃ e, write Int64.minValue .abstractInt = .ok e ∧
      ∀ b, e.eval b = .error (.malformedLiteral "9223372036854775808") := by
  refine ⟨_, rfl, fun b => ?_⟩
  have hliteral : (ofMagnitude Int64.minValue.toInt.natAbs "" .intLiteral).eval b =
      .error (.malformedLiteral "9223372036854775808") := by
    rw [ofMagnitude, Expr.eval]
    decide +kernel
  have hsigned : signed Int64.minValue.toInt "" .intLiteral =
      (ofMagnitude Int64.minValue.toInt.natAbs "" .intLiteral).neg := if_pos (by decide)
  rw [hsigned, Expr.eval, hliteral]
  rfl

/-- A word has a literal in just the types that contain it, and the literal is worth the word,
except at two ends. The greatest word has a literal in either float type, which is worth the
next integer. The least word has one as an abstract integer, which is worth nothing. -/
theorem writesExactly_except_ends (word : Int64) (ty : Scalar) (hty : ty ≠ .bool) :
    ((ty.isFloat = true → word ≠ Int64.maxValue) → (ty = .abstractInt → word ≠ Int64.minValue) →
      WritesExactly word ty) ∧
    (ty.isFloat = true → word = Int64.maxValue → ¬ ty.Contains word.toInt ∧
      ∃ (e : Expr) (v : Value), write word ty = .ok e ∧ v.scalar = ty ∧
        v.whole? = some (word.toInt + 1) ∧ ∀ b, e.eval b = .ok v) ∧
    (ty = .abstractInt → word = Int64.minValue → ty.Contains word.toInt ∧
      ∃ e, write word ty = .ok e ∧
        ∀ b, e.eval b = .error (.malformedLiteral "9223372036854775808")) := by
  refine ⟨fun hgreatest hleast => ?_, ?_, ?_⟩
  · cases ty with
    | bool => exact absurd rfl hty
    | i32 => exact .i32 word
    | u32 => exact .u32 word
    | abstractInt => exact .abstractInt (hleast rfl)
    | f32 => exact .f32 (hgreatest rfl)
    | abstractFloat => exact .abstractFloat (hgreatest rfl)
  · rintro hfloat rfl
    exact ⟨not_contains_greatest hfloat, exists_write_greatest hfloat⟩
  · rintro rfl rfl
    exact ⟨Scalar.contains_abstractInt _, eval_write_least⟩

/-- One more than a float has bits for is refused, and the ends are as they are. -/
theorem writesExactly_except_ends_single :
    write 16777217 .f32 = .error (.outOfRange (.ofInt 16777217) .f32) ∧
      (∃ (e : Expr) (v : Value), write Int64.maxValue .f32 = .ok e ∧ v.scalar = .f32 ∧
        v.whole? = some (Int64.maxValue.toInt + 1) ∧ ∀ b, e.eval b = .ok v) ∧
      ∃ e, write Int64.minValue .abstractInt = .ok e ∧
        ∀ b, e.eval b = .error (.malformedLiteral "9223372036854775808") := by
  have hodd : ¬ Scalar.f32.Contains (16777217 : Int64).toInt :=
    Scalar.contains_f32_iff.not.2 (by decide +kernel)
  exact ⟨((writesExactly_except_ends 16777217 .f32 (by decide)).1 (fun _ => by decide)
      (by intro h; cases h)).refused hodd,
    ((writesExactly_except_ends Int64.maxValue .f32 (by decide)).2.1 rfl rfl).2,
    ((writesExactly_except_ends Int64.minValue .abstractInt (by decide)).2.2 rfl rfl).2⟩

/-- At both ends writing is not exact: a word that is no float is not refused, and an abstract
integer has a literal that is not worth it. -/
theorem not_writesExactly_ends :
    ¬ WritesExactly Int64.maxValue .f32 ∧ ¬ WritesExactly Int64.minValue .abstractInt := by
  constructor
  · intro h
    obtain ⟨e, -, hwrite, -⟩ := exists_write_greatest (show Scalar.f32.isFloat = true from rfl)
    rw [h.refused (not_contains_greatest rfl)] at hwrite
    cases hwrite
  · intro h
    obtain ⟨e, hwrite, hfault⟩ := eval_write_least
    obtain ⟨v, -, -, -, hv⟩ := h.worth e hwrite
    have hworth := hv .empty
    rw [hfault] at hworth
    cases hworth

end Literal

end Camouflage
