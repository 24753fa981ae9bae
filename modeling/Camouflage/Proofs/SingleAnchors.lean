import Camouflage.Proofs.ClampedIntegers
import Mathlib.Data.ENat.Lattice

/-!
# What an anchor of single precision records

An anchor of single precision records the whole part of what the uniform holds, if that is
not negative and in the precise range, and otherwise the remainder of its magnitude. The whole
part is a sign and a magnitude here (`Value.wholeNegative`, `Value.wholeMagnitude`): a zero has
a sign, too, and an infinity has a magnitude that is beyond all numbers.

Main statement: `single_anchor_exact`. What is recorded is what the expression is worth, with a
positive sign, for every integer and every number of single precision that a uniform can hold.
None holds a NaN (`Uniform.isNumber_of_contents`), because no literal that can be read is one.
-/

namespace Camouflage

namespace Binary

variable {f : Format}

/-- A whole number has no fraction to lose. -/
theorem trunc_of_whole? (hf : f.Spacious) {x : Binary f} {n : Int} (h : x.whole? = some n) :
    x.trunc = x := by
  obtain ⟨negative, hfits, rfl, -⟩ := whole?_eq_some_iff.1 h
  rw [trunc_finite hf]
  exact finite_congr (by rw [Nat.mul_div_cancel _ f.one_pos])

/-- A whole number that is not negative is clamped to the greatest unsigned word that is a
number of single precision. -/
theorem toNat_toUInt32_of_whole? {x : Single} {n : Nat} (h : x.whole? = some (n : Int)) :
    x.toUInt32.toNat = min n 4294967040 := by
  have hclamped := clamps_toUInt32.integer_of_whole? h
  omega

/-- So is an infinity. -/
theorem toNat_toUInt32_infinite : (infinite false : Single).toUInt32.toNat = 4294967040 := by
  have hclamped := clamps_toUInt32.eq_clamped (infinite false) ⊤ rfl
  have hlimits : (0 : ℤ) ≤ 4294967040 := by decide
  change _ = max (Extended.finite 0) (min ⊤ (.finite 4294967040)) at hclamped
  rw [min_top_left, max_eq_right (Extended.finite_mono hlimits)] at hclamped
  exact Int.ofNat_inj.1 (Extended.finite_injective hclamped)

/-! ## Whole parts -/

/-- Whether a number has a negative sign. -/
def isNegative : Binary f → Bool
  | nan => false
  | infinite negative => negative
  | finite negative _ _ => negative

/-- The magnitude of the whole part of a number, which for an infinity is beyond all numbers. -/
def wholeMagnitude : Binary f → ℕ∞
  | nan => 0
  | infinite _ => ⊤
  | finite _ units _ => (units / f.one : Nat)

end Binary

/-- The magnitude of a signed word is that of its integer, also for the least one. -/
theorem toNat_abs (n : Int32) : (if n < 0 then -n else n).toUInt32.toNat = n.toInt.natAbs := by
  have hlow := n.le_toInt
  have hhigh := n.toInt_lt
  have hword := toInt_toInt32 n.toUInt32
  change n.toInt = _ at hword
  have hlt := n.toUInt32.toNat_lt
  have hsize : UInt32.size = 2 ^ 32 := rfl
  by_cases hneg : n < 0
  · have hnegInt : n.toInt < 0 := by simpa [Int32.lt_iff_toInt_lt] using hneg
    rw [if_pos hneg, Int32.toUInt32_neg, UInt32.toNat_neg, hsize]
    omega
  · have hnonneg : 0 ≤ n.toInt := by simpa [Int32.lt_iff_toInt_lt] using hneg
    rw [if_neg hneg]
    omega

namespace Value

/-- Whether the whole part of a number has a negative sign. That of a float is its own, also
where nothing is left of it. -/
def wholeNegative : Value → Bool
  | i32 n => n.toInt < 0
  | u32 _ => false
  | abstractInt n => n.toInt < 0
  | f32 x => x.isNegative
  | abstractFloat x => x.isNegative

/-- The magnitude of the whole part of a number. -/
def wholeMagnitude : Value → ℕ∞
  | i32 n => n.toInt.natAbs
  | u32 n => n.toNat
  | abstractInt n => n.toInt.natAbs
  | f32 x => x.wholeMagnitude
  | abstractFloat x => x.wholeMagnitude

/-- The greatest magnitude that is reduced as it is. A float is clamped to the greatest
unsigned word of single precision on the way. -/
def magnitudeCap : Value → ℕ∞
  | f32 _ | abstractFloat _ => 4294967040
  | i32 _ | u32 _ | abstractInt _ => ⊤

/-- The value without its fraction, if it is of single precision. -/
def truncated : Value → Value
  | f32 x => f32 x.trunc
  | v => v

/-- Whether a value is a number. -/
def IsNumber : Value → Prop
  | f32 x => x ≠ .nan
  | abstractFloat x => x ≠ .nan
  | i32 _ | u32 _ | abstractInt _ => True

variable {v : Value}

/-- Every integer of 32 bits is a number of double precision. -/
theorem toDouble_eq_of_natAbs_le {n : Int} (h : n.natAbs ≤ 2 ^ 32) :
    ∃ hfits, (Binary.ofInt n : Double) =
      .finite (n < 0) (n.natAbs * Format.double.one) hfits := by
  have hwide : (2 : Nat) ^ 32 ≤ 2 ^ Format.double.precision := by decide
  have hfits := Format.double_spacious.fits (Nat.le_trans h hwide)
  exact ⟨hfits, Binary.ofQuotient_of_fits hfits⟩

/-- In double precision the whole part is its sign and its magnitude. -/
theorem toDouble_truncated (hv : v.IsConcrete) (hnumber : v.IsNumber) :
    (v.wholeMagnitude = ⊤ ∧ v.truncated.toDouble = .infinite v.wholeNegative) ∨
      ∃ (n : Nat) (h : _), v.wholeMagnitude = n ∧
        v.truncated.toDouble = .finite v.wholeNegative (n * Format.double.one) h := by
  cases v with
  | i32 n =>
    have hlow := n.le_toInt
    have hhigh := n.toInt_lt
    obtain ⟨hfits, hdouble⟩ := toDouble_eq_of_natAbs_le (n := n.toInt) (by omega)
    exact .inr ⟨n.toInt.natAbs, hfits, rfl, hdouble⟩
  | u32 n =>
    have hlt := n.toNat_lt
    obtain ⟨hfits, hdouble⟩ := toDouble_eq_of_natAbs_le (n := n.toNat) (by omega)
    rw [Binary.ofInt_natCast] at hdouble
    refine .inr ⟨n.toNat, hfits, rfl, ?_⟩
    show (Binary.ofNat n.toNat : Double) = _
    rw [hdouble]
    exact Binary.finite_congr rfl
  | f32 x =>
    cases x with
    | nan => exact absurd rfl hnumber
    | infinite negative => exact .inl ⟨rfl, rfl⟩
    | finite negative units h =>
      have hwithin := Format.single_within_double
      have hone : units / Format.single.one * Format.single.one * Format.single.unitsOf .double =
          units / Format.single.one * Format.double.one := by
        rw [hwithin.one_eq, Nat.mul_assoc, Nat.mul_comm Format.single.one]
      refine .inr ⟨units / Format.single.one,
        hone ▸ hwithin.fits (Format.single_spacious.fits_whole h), rfl, ?_⟩
      rw [truncated, toDouble, Binary.trunc_finite Format.single_spacious,
        Binary.convert_of_within hwithin]
      exact Binary.finite_congr hone
  | abstractInt n => cases hv
  | abstractFloat x => cases hv

/-- The magnitude of the whole part as an unsigned word. -/
theorem magnitude_truncated (hv : v.IsConcrete) (hnumber : v.IsNumber) :
    ∃ x word, v.truncated.abs = .ok x ∧ x.convert .u32 = .ok (.u32 word) ∧
      (word.toNat : ℕ∞) = min v.wholeMagnitude v.magnitudeCap := by
  cases v with
  | i32 n => exact ⟨_, _, rfl, rfl, by rw [toNat_abs, magnitudeCap, min_top_right]; rfl⟩
  | u32 n => exact ⟨_, _, rfl, rfl, by rw [magnitudeCap, min_top_right]; rfl⟩
  | f32 x =>
    refine ⟨_, _, rfl, rfl, ?_⟩
    cases x with
    | nan => exact absurd rfl hnumber
    | infinite negative =>
      show ((Binary.infinite false : Single).toUInt32.toNat : ℕ∞) = min ⊤ 4294967040
      rw [Binary.toNat_toUInt32_infinite, min_top_left]
      rfl
    | finite negative units h =>
      have hwhole : (Binary.abs (Binary.finite negative units h).trunc).whole? =
          some ((units / Format.single.one : Nat) : Int) := by
        rw [Binary.trunc_finite Format.single_spacious]
        simp [Binary.abs, Binary.whole?, Binary.signed, Nat.mul_div_cancel _ Format.single.one_pos]
      rw [Binary.toNat_toUInt32_of_whole? hwhole]
      exact Nat.mono_cast.map_min
  | abstractInt n => cases hv
  | abstractFloat x => cases hv

end Value

/-! ## No uniform holds a NaN -/

namespace Binary

variable {f g : Format}

theorem ofInt_ne_nan (n : Int) : (ofInt n : Binary f) ≠ nan := ofUnits_ne_nan _ _

theorem ofNat_ne_nan (n : Nat) : (ofNat n : Binary f) ≠ nan := ofUnits_ne_nan _ _

theorem neg_ne_nan {x : Binary f} (hx : x ≠ nan) : -x ≠ nan := by
  cases x with
  | nan => exact absurd rfl hx
  | infinite negative => exact fun h => by cases h
  | finite negative units h => exact fun h => by cases h

theorem convert_ne_nan {x : Binary f} (hx : x ≠ nan) : x.convert g ≠ nan := by
  cases x with
  | nan => exact absurd rfl hx
  | infinite negative => exact fun h => by cases h
  | finite negative units h => exact ofUnits_ne_nan negative _

theorem ofNumeral_ne_nan {decimal : Numeral.Decimal} (h : decimal ≠ .nan) :
    (ofNumeral decimal : Binary f) ≠ nan := by
  cases decimal with
  | nan => exact absurd rfl h
  | infinite negative => exact fun h => by cases h
  | finite negative digits exponent =>
    rw [ofNumeral, ofDecimal_eq_ofQuotient]
    exact ofUnits_ne_nan negative _

end Binary

namespace Value

variable {v w : Value} {x : Double} {ty : Scalar}

theorem isNumber_of_integer? {n : Int} (h : v.integer? = some n) : v.IsNumber := by
  cases v with
  | f32 y => cases h
  | abstractFloat y => cases h
  | _ => trivial

/-- What is read is finite, so it is no NaN in any format. -/
theorem isNumber_of_ofFloatChars? {cs : List Char} (hv : ofFloatChars? cs = some v)
    (hx : Literal.ofFloatChars? cs = some x) : v.IsNumber := by
  obtain ⟨decimal, rfl, hfinite, hdecimal⟩ := exists_decimal_of_ofFloatChars? hv hx
  have hnumber : decimal ≠ .nan := by
    rintro rfl
    cases hfinite
  rcases hdecimal with rfl | rfl
  · exact Binary.ofNumeral_ne_nan hnumber
  · exact Binary.ofNumeral_ne_nan hnumber

theorem IsNumber.negate (h : v.IsNumber) (hw : UnaryOp.negate.apply v = .ok w) : w.IsNumber := by
  cases v with
  | i32 n => obtain rfl := Except.ok.inj hw; trivial
  | u32 n => cases hw
  | abstractInt n =>
    obtain ⟨word, -, rfl⟩ := exact_eq_ok_iff.1 hw
    trivial
  | f32 y => obtain rfl := Except.ok.inj hw; exact Binary.neg_ne_nan h
  | abstractFloat y => obtain rfl := Except.ok.inj hw; exact Binary.neg_ne_nan h

theorem IsNumber.concretize? (h : v.IsNumber) (hw : v.concretize? ty = some w) : w.IsNumber := by
  unfold Value.concretize? at hw
  split at hw
  · rwa [← Option.some.inj hw]
  · split at hw
    · obtain ⟨_, -, rfl⟩ := Option.map_eq_some_iff.1 hw; trivial
    · obtain ⟨_, -, rfl⟩ := Option.map_eq_some_iff.1 hw; trivial
    · obtain rfl := Option.some.inj hw; exact Binary.ofInt_ne_nan _
    · obtain rfl := Option.some.inj hw; exact Binary.ofInt_ne_nan _
    · obtain rfl := Option.some.inj hw; exact Binary.convert_ne_nan h
    · cases hw

theorem IsNumber.convert (h : v.IsNumber) (hw : v.convert ty = .ok w) : w.IsNumber := by
  cases v with
  | i32 n =>
    cases ty <;> cases hw
    · trivial
    · trivial
    · exact Binary.ofInt_ne_nan _
  | u32 n =>
    cases ty <;> cases hw
    · trivial
    · trivial
    · exact Binary.ofNat_ne_nan _
  | f32 y =>
    cases ty <;> cases hw
    · trivial
    · trivial
    · exact h
  | abstractFloat y =>
    cases ty <;> cases hw
    · trivial
    · trivial
    · exact Binary.convert_ne_nan h
  | abstractInt n =>
    have hconcretize : ∀ target, (abstractInt n).concretize target = .ok w → w.IsNumber := by
      intro target hok
      unfold concretize at hok
      split at hok
      · rename_i found hfound
        obtain rfl := Except.ok.inj hok
        exact h.concretize? hfound
      · cases hok
    cases ty with
    | i32 => exact hconcretize .i32 hw
    | u32 => exact hconcretize .u32 hw
    | f32 => exact hconcretize .f32 hw
    | _ => cases hw

end Value

/-- What can be read as a literal is worth a number. -/
theorem Expr.isNumber_of_read {e : Expr} {b : Bindings} {x : Double} {v : Value}
    (hx : Literal.read e = .ok x) (hv : e.eval b = .ok v) : v.IsNumber := by
  fun_induction Literal.read e generalizing x v with
  | case1 text =>
    obtain ⟨n, hn, -⟩ := Literal.rounds_of_ofIntChars? (ofLiteral_eq_ok hv) (ofText_eq_ok hx)
    exact Value.isNumber_of_integer? hn
  | case2 text => exact Value.isNumber_of_ofFloatChars? (ofLiteral_eq_ok hv) (ofText_eq_ok hx)
  | case3 target ih =>
    obtain ⟨w, hw, happly⟩ := eval_unary_eq_ok hv
    obtain ⟨y, hread, -⟩ := exists_of_bind_eq_ok hx
    exact (ih hread hw).negate happly
  | case4 inner ih =>
    rw [eval_paren] at hv
    exact ih hx hv
  | case5 args => cases hx
  | case6 ty arg _ ih =>
    obtain ⟨w, hw, hconvert⟩ := eval_construct_eq_ok hv
    exact (ih hx hw).convert hconvert
  | case7 e => cases hx

theorem Uniform.isNumber_of_contents {u : Uniform} {v : Value} (h : u.contents = .ok v) :
    v.IsNumber := by
  obtain ⟨x, hread, h⟩ := exists_of_bind_eq_ok h
  split at h
  · obtain ⟨w, -, rfl⟩ := Option.map_eq_some_iff.1 (integerContents_ok h).2
    trivial
  · obtain ⟨w, -, rfl⟩ := Option.map_eq_some_iff.1 (integerContents_ok h).2
    trivial
  · obtain ⟨w, heval, hw⟩ := singleContents_ok h
    exact (Expr.isNumber_of_read hread heval).concretize? hw
  · cases h
  · cases h
  · cases h

/-! ## What is recorded -/

namespace Anchor

variable {u : Uniform} {v : Value}

/-- The uniform as a number of single precision: without its fraction if it has one, and
converted if it is an integer. -/
def wholeExpr (u : Uniform) : Value → Expr
  | .f32 x => if x.isWhole then u.reference else .call "trunc" [u.reference]
  | .i32 _ | .u32 _ | .abstractInt _ | .abstractFloat _ => .construct .f32 [u.reference]

/-- An anchor of single precision over a uniform that holds a value: what its expression is
worth, which is what it records, and how that comes from the whole part of the value. -/
structure IsExact (u : Uniform) (v : Value) (anchor : Anchor) : Prop where
  magnitude_le : anchor.magnitude.toNat ≤ 2 ^ 24
  /-- Wherever the uniform holds its value, the expression is worth what is recorded. -/
  eval_eq : ∀ b : Bindings, b.lookup u.reference = .ok v →
    ∃ h, anchor.expr.eval b =
      .ok (.f32 (.finite false (anchor.magnitude.toNat * Format.single.one) h))
  /-- A whole part in the precise range is recorded as it is. -/
  of_precise : v.wholeNegative = false → v.wholeMagnitude ≤ 2 ^ 24 →
    (anchor.magnitude.toNat : ℕ∞) = v.wholeMagnitude ∧ anchor.expr = wholeExpr u v
  /-- Any other is reduced to the range, after a magnitude beyond the cap is clamped to it. -/
  of_reduced : v.wholeNegative = true ∨ 2 ^ 24 < v.wholeMagnitude →
    anchor.magnitude.toNat = (min v.wholeMagnitude v.magnitudeCap).toNat % 16777217
  /-- Nothing is left of a negative fraction or a negative zero. -/
  of_negative_fraction : ∀ units h, v = .f32 (.finite true units h) →
    units < Format.single.one → anchor.magnitude = 0

/-- What remains of a uniform without its fraction is worth the value without it. -/
theorem base_truncated (href : u.reference.isReference = true) (hv : v.IsConcrete) :
    ∃ e, base u v = .ok e ∧ Worth u v e v.truncated ∧
      (if v.scalar = .f32 then e else .construct .f32 [e]) = wholeExpr u v := by
  cases v with
  | i32 n => exact ⟨_, rfl, worth_reference href, rfl⟩
  | u32 n => exact ⟨_, rfl, worth_reference href, rfl⟩
  | f32 x =>
    by_cases hwhole : x.isWhole = true
    · obtain ⟨n, hn⟩ := Binary.isWhole_iff.1 hwhole
      refine ⟨u.reference, by rw [base, if_pos hwhole], ?_, by rw [wholeExpr, if_pos hwhole]; rfl⟩
      rw [Value.truncated, Binary.trunc_of_whole? Format.single_spacious hn]
      exact worth_reference href
    · exact ⟨.call "trunc" [u.reference], by rw [base, if_neg hwhole], (worth_reference href).call rfl,
        by rw [wholeExpr, if_neg hwhole]; rfl⟩
  | abstractInt n => cases hv
  | abstractFloat x => cases hv

/-- The precise numbers are those whose whole part is not negative and in range. -/
theorem isPrecise_truncated_iff (hv : v.IsConcrete) (hnumber : v.IsNumber) :
    isPrecise v.truncated.toDouble = true ↔
      v.wholeNegative = false ∧ v.wholeMagnitude ≤ 2 ^ 24 := by
  have hlimit : ((preciseLimit.toNat : Nat) : ℕ∞) = 2 ^ 24 := rfl
  rw [isPrecise_iff, ← hlimit]
  rcases Value.toDouble_truncated hv hnumber with ⟨hmagnitude, hdouble⟩ | ⟨n, h, hmagnitude, hdouble⟩
  · rw [hmagnitude, hdouble]
    simp
  · rw [hmagnitude, hdouble, Nat.cast_le]
    constructor
    · rintro ⟨units, hfits, heq, hle⟩
      obtain ⟨hsign, rfl⟩ := Binary.finite.inj heq
      exact ⟨hsign, Nat.le_of_mul_le_mul_right hle Format.double.one_pos⟩
    · rintro ⟨hsign, hle⟩
      exact ⟨_, h, by rw [hsign], Nat.mul_le_mul_right _ hle⟩

/-- Of a precise number the whole part is recorded. -/
theorem magnitudeOf_truncated (hv : v.IsConcrete) (hnumber : v.IsNumber)
    (hsign : v.wholeNegative = false) (hle : v.wholeMagnitude ≤ 2 ^ 24) :
    ((magnitudeOf v.truncated.toDouble).toNat : ℕ∞) = v.wholeMagnitude := by
  rcases Value.toDouble_truncated hv hnumber with ⟨hmagnitude, -⟩ | ⟨n, h, hmagnitude, hdouble⟩
  · rw [hmagnitude] at hle
    exact absurd hle (by decide)
  · have hlimit : ((2 ^ 24 : Nat) : ℕ∞) = 2 ^ 24 := rfl
    rw [hmagnitude, ← hlimit, Nat.cast_le] at hle
    have hofNat : v.truncated.toDouble = .ofNat n := by
      rw [hdouble, hsign]
      exact (Binary.ofQuotient_of_fits h).symm
    have hword : n < UInt32.size := by
      rw [UInt32.size]
      omega
    rw [hmagnitude, hofNat, magnitudeOf_ofNat (by omega), UInt32.toNat_ofNat_of_lt' hword]

/-- Of any other number the remainder of the magnitude is recorded. -/
theorem magnitude_of_reduced (href : u.reference.isReference = true) (hv : v.IsConcrete)
    (hnumber : v.IsNumber) {anchor : Anchor} (h : ofSingle u v .f32 = .ok anchor)
    (hout : v.wholeNegative = true ∨ 2 ^ 24 < v.wholeMagnitude) :
    anchor.magnitude.toNat = (min v.wholeMagnitude v.magnitudeCap).toNat % 16777217 := by
  obtain ⟨e, hbase, he, -⟩ := base_truncated href hv
  have hnot : ¬ isPrecise v.truncated.toDouble = true := by
    rw [isPrecise_truncated_iff hv hnumber]
    rintro ⟨hsign, hmagnitude⟩
    rcases hout with hnegative | hlarge
    · rw [hsign] at hnegative
      cases hnegative
    · exact absurd hmagnitude (not_le.2 hlarge)
  obtain ⟨x, word, habs, hword, hmin⟩ := Value.magnitude_truncated hv hnumber
  obtain ⟨expr, hexpr, hworth⟩ := reduced_spec he habs hword
  rw [ofSingle_of_not_isPrecise hbase he hnot hexpr hworth (mod_le_preciseLimit word)] at h
  obtain rfl := Except.ok.inj h
  rw [← hmin, ENat.toNat_natCast, UInt32.ofNat_toNat, UInt32.toNat_mod]
  rfl

theorem ofSingle_isExact (href : u.reference.isReference = true) (hv : v.IsConcrete)
    (hnumber : v.IsNumber) : ∃ anchor, ofSingle u v .f32 = .ok anchor ∧ anchor.IsExact u v := by
  obtain ⟨anchor, hanchor, hle, hworth⟩ := ofSingle_spec href hv
  have hlimit : anchor.magnitude.toNat ≤ 2 ^ 24 := UInt32.le_iff_toNat_le.1 hle
  have hreduced := magnitude_of_reduced href hv hnumber hanchor
  refine ⟨anchor, hanchor, hlimit, ?_, ?_, hreduced, ?_⟩
  · intro b hb
    have hfits := Format.single_spacious.fits hlimit
    exact ⟨hfits, by rw [hworth b hb, Binary.ofNat_eq Format.single_spacious hlimit]⟩
  · intro hsign hmagnitude
    obtain ⟨e, hbase, he, hexpr⟩ := base_truncated href hv
    have hprecise := (isPrecise_truncated_iff hv hnumber).2 ⟨hsign, hmagnitude⟩
    rw [ofSingle_of_isPrecise hbase he hprecise] at hanchor
    obtain rfl := Except.ok.inj hanchor
    exact ⟨magnitudeOf_truncated hv hnumber hsign hmagnitude, hexpr⟩
  · rintro units h rfl hsmall
    have hzero := hreduced (.inl rfl)
    have hwhole : (Value.f32 (.finite true units h)).wholeMagnitude = 0 := by
      rw [Value.wholeMagnitude, Binary.wholeMagnitude, Nat.div_eq_of_lt hsmall]
      rfl
    rw [hwhole, zero_min] at hzero
    exact UInt32.toNat_inj.1 hzero

end Anchor

/-- Every uniform has an anchor of single precision. It is worth exactly what it records: the
whole part of what the uniform holds, if that has a positive sign and is in the precise range,
or else the remainder of its magnitude. -/
theorem single_anchor_exact {u : Uniform} {v : Value} (href : u.reference.isReference = true)
    (hcontents : u.contents = .ok v) :
    v.IsNumber ∧ ∃ anchor, Anchor.ofSingle u v .f32 = .ok anchor ∧ anchor.IsExact u v :=
  have hnumber := Uniform.isNumber_of_contents hcontents
  ⟨hnumber, Anchor.ofSingle_isExact href (Uniform.scalar_of_contents hcontents).2 hnumber⟩

/-- A uniform that holds the least signed word, whose magnitude is no signed word. -/
def Uniform.least : Uniform := ⟨.identifier "x", (Expr.intLiteral "2147483648").neg, .i32⟩

theorem single_anchor_exact_least :
    Uniform.least.contents = .ok (.i32 Int32.minValue) ∧
      ∃ anchor, Anchor.ofSingle .least (.i32 Int32.minValue) .f32 = .ok anchor ∧
        anchor.IsExact .least (.i32 Int32.minValue) ∧
        anchor.magnitude.toNat = 2147483648 % 16777217 := by
  have hcontents : Uniform.least.contents = .ok (.i32 Int32.minValue) := by decide +kernel
  obtain ⟨-, anchor, hanchor, hexact⟩ := single_anchor_exact rfl hcontents
  exact ⟨hcontents, anchor, hanchor, hexact, hexact.of_reduced (.inl rfl)⟩

end Camouflage
