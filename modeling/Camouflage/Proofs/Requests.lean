import Camouflage.Proofs.Disguises
import Camouflage.Proofs.Uniforms
import Camouflage.Proofs.WholeNumbers
import Camouflage.Random.ChaCha

/-!
# Requests

Synthesis can be asked for an integer or for the value of a literal. A literal that is read
as a whole number stands for its integer or its magnitude: `disguiseLiteral` reads it,
checks the range on numbers of double precision, where the ends of every range are exact,
and goes on as for the integer or the magnitude itself. So a request for a literal that
succeeds is one of these two (`Palette.of_disguiseLiteral_ok`).

The two ways to ask for an integer check the same range. Only for an unsigned type is a
negative integer refused by a check of its own, which the range of the literal forestalls.
-/

namespace Camouflage

open Synth

/-- Whether an expression is read as a whole number, and which. -/
def Literal.ReadsAs (e : Expr) (n : Int) : Prop := ∃ x, read e = .ok x ∧ x.whole? = some n

/-- What synthesis can be asked to disguise: an integer of a type, or the value of a
literal. -/
inductive Request where
  | integer (value : Int64) (ty : Scalar)
  | literal (e : Expr) (shape : Shape)

/-- The requests that synthesis takes for a type. -/
inductive Request.Admissible (ty : Scalar) : Request → Prop
  | integer {value} : ty.Takes value.toInt → Admissible ty (.integer value ty)
  | integerLiteral {e n} : Literal.ReadsAs e n → ty.Takes n → Admissible ty (.literal e (.scalar ty))
  | floatLiteral {e n} : Literal.ReadsAs e n → ty.isFloat = true → 0 ≤ n → n ≤ 2 ^ 24 →
      Admissible ty (.literal e (.scalar ty))

/-- Whether a request asks for a number in a type. Integers are asked for in types of theirs. -/
inductive Request.AsksFor (ty : Scalar) (n : Int) : Request → Prop
  | integer {value} : ty.isInteger = true → value.toInt = n → AsksFor ty n (.integer value ty)
  | literal {e} : Literal.ReadsAs e n → AsksFor ty n (.literal e (.scalar ty))

theorem Scalar.Takes.toInt_ofInt {ty : Scalar} {n : Int} (h : ty.Takes n) :
    (Int64.ofInt n).toInt = n := by
  have hlt := h.natAbs_lt
  have hmin := Int64.toInt_minValue
  have hmax := Int64.toInt_maxValue
  exact Int64.toInt_ofInt_of_le (by omega) (by omega)

/-- The ends of every range are numbers of double precision. -/
theorem Scalar.whole?_integerRange (ty : Scalar) :
    (Binary.ofInt ty.integerRange.1 : Double).whole? = some ty.integerRange.1 ∧
      (Binary.ofInt ty.integerRange.2 : Double).whole? = some ty.integerRange.2 := by
  have hends : ty.integerRange.1.natAbs ≤ 2 ^ Format.double.precision ∧
      ty.integerRange.2.natAbs ≤ 2 ^ Format.double.precision := by
    cases ty <;> decide
  exact ⟨Binary.whole?_ofInt Format.double_spacious hends.1,
    Binary.whole?_ofInt Format.double_spacious hends.2⟩

namespace Palette

variable {σ : Type} [WordSource σ] {J : Type} [Membership Uniform J] [ShaderJob J]

/-- Disguises what is asked for. -/
def disguise (palette : Palette J) (depth : Nat) : Request → Synth σ Disguise
  | .integer value ty => palette.disguiseInteger depth value ty
  | .literal e shape => palette.disguiseLiteral depth e shape

variable {palette : Palette J} {ty : Scalar} {e : Expr} {x : Double} {n : Int}

/-- What becomes of a literal that is read as a number without a fraction. -/
theorem disguiseLiteral_of_isWhole (depth : Nat) (hread : Literal.read e = .ok x)
    (hwhole : x.isWhole = true) :
    (palette.disguiseLiteral depth e (.scalar ty) : Synth σ Disguise) =
      if ty.isInteger = true then
        if x.less (.ofInt ty.integerRange.1) = true ∨ (Binary.ofInt ty.integerRange.2).less x = true then
          throw (.outOfRange x ty)
        else
          palette.disguiseInteger depth
            (.ofInt (x.toIntClamped Int64.minValue.toInt Int64.maxValue.toInt)) ty
      else if ty.isFloat = true then palette.disguiseWhole depth x ty
      else throw (.unsupportedType (.scalar ty)) := by
  have hrequire : Literal.requireWhole x = .ok x := if_pos hwhole
  unfold disguiseLiteral
  rw [hread]
  show ((liftM (Literal.requireWhole x) : Synth σ Double) >>= _) = _
  rw [hrequire]
  rfl

/-! ## Integers -/

/-- A literal of an integer type that is read as a whole number is a request for it, unless
it is outside of the range. -/
theorem disguiseLiteral_of_isInteger (hty : ty.isInteger = true) (depth : Nat)
    (hread : Literal.read e = .ok x) (hx : x.whole? = some n) :
    (palette.disguiseLiteral depth e (.scalar ty) : Synth σ Disguise) =
      if n < ty.integerRange.1 ∨ ty.integerRange.2 < n then throw (.outOfRange x ty)
      else palette.disguiseInteger depth (.ofInt n) ty := by
  obtain ⟨hleast, hgreatest⟩ := ty.whole?_integerRange
  have hlow := Binary.less_iff_of_whole? hx hleast
  have hhigh := Binary.less_iff_of_whole? hgreatest hx
  rw [disguiseLiteral_of_isWhole depth hread (Binary.isWhole_iff.2 ⟨n, hx⟩), if_pos hty]
  simp only [hlow, hhigh]
  split
  · rfl
  · rename_i hrange
    have htakes : ty.Takes n := ⟨hty, by omega, by omega⟩
    have hlt := htakes.natAbs_lt
    have hmin := Int64.toInt_minValue
    have hmax := Int64.toInt_maxValue
    rw [Binary.toIntClamped_of_whole? hx (by omega) (by omega)]

/-- An integer outside of the range is refused for it, but for the negative ones of an
unsigned type. -/
theorem disguiseInteger_of_outOfRange (hty : ty.isInteger = true) (depth : Nat) {value : Int64}
    (hsigned : ¬ (value.toInt < 0 ∧ ty = .u32))
    (hrange : value.toInt < ty.integerRange.1 ∨ ty.integerRange.2 < value.toInt) :
    (palette.disguiseInteger depth value ty : Synth σ Disguise) =
      throw (.outOfRange (.ofInt value.toInt) ty) := by
  unfold disguiseInteger
  dsimp only
  rw [hty, if_neg (by decide), if_neg hsigned, if_pos hrange]

/-- A literal and the integer that it is read as are disguised by the same run, but for the
negative ones of an unsigned type. -/
theorem disguiseLiteral_eq_disguiseInteger (hty : ty.isInteger = true) (depth : Nat)
    {value : Int64} (h : Literal.ReadsAs e value.toInt)
    (hsigned : ¬ (value.toInt < 0 ∧ ty = .u32)) :
    (palette.disguiseLiteral depth e (.scalar ty) : Synth σ Disguise) =
      palette.disguiseInteger depth value ty := by
  obtain ⟨x, hread, hx⟩ := h
  rw [disguiseLiteral_of_isInteger hty depth hread hx, Int64.ofInt_toInt]
  split
  · rename_i hrange
    -- zero, which the number may be with either sign, is in every range
    have hne : value.toInt ≠ 0 := by
      intro hzero
      rw [hzero] at hrange
      cases ty <;> revert hrange <;> decide
    rw [disguiseInteger_of_outOfRange hty depth hsigned hrange, ← Binary.eq_ofInt_of_whole? hx hne]
  · rfl

/-- A literal that is read as a negative integer is out of the range of an unsigned type. -/
theorem disguiseLiteral_of_negative (depth : Nat) (h : Literal.ReadsAs e n) (hneg : n < 0) :
    (palette.disguiseLiteral depth e (.scalar .u32) : Synth σ Disguise) =
      throw (.outOfRange (.ofInt n) .u32) := by
  obtain ⟨x, hread, hx⟩ := h
  rw [disguiseLiteral_of_isInteger rfl depth hread hx,
    ← Binary.eq_ofInt_of_whole? hx (Int.ne_of_lt hneg)]
  exact if_pos (.inl hneg)

/-- A negative integer is refused as such for an unsigned type. -/
theorem disguiseInteger_of_negative (depth : Nat) {value : Int64} (hneg : value.toInt < 0) :
    (palette.disguiseInteger depth value .u32 : Synth σ Disguise) =
      throw (.negativeUnsigned value.toInt) := by
  unfold disguiseInteger
  dsimp only
  rw [if_neg (by decide), if_pos ⟨hneg, rfl⟩]

/-- A literal that is read as an integer of the type is a request for it. -/
theorem disguiseLiteral_of_takes (htakes : ty.Takes n) (depth : Nat) (h : Literal.ReadsAs e n) :
    (palette.disguiseLiteral depth e (.scalar ty) : Synth σ Disguise) =
      palette.disguiseInteger depth (.ofInt n) ty := by
  obtain ⟨x, hread, hx⟩ := h
  obtain ⟨hinteger, hlow, hhigh⟩ := htakes
  rw [disguiseLiteral_of_isInteger hinteger depth hread hx]
  exact if_neg (by omega)

/-! ## Floats -/

/-- A whole number of a float type is disguised as its magnitude, unless it is outside of
the precise range. A negative zero is inside. -/
theorem disguiseWhole_of_whole? (depth : Nat) (hx : x.whole? = some n) :
    (palette.disguiseWhole depth x ty : Synth σ Disguise) =
      if n < 0 ∨ 2 ^ 24 < n then throw (.outsidePreciseRange x)
      else palette.disguiseMagnitude .float depth ty (UInt32.ofNat n.toNat) := by
  have hlow := Binary.less_iff_of_whole? hx (Binary.whole?_zero false)
  have hhigh : (Binary.ofNat preciseLimit.toNat : Double).less x = true ↔ 2 ^ 24 < n := by
    rw [← Binary.ofInt_natCast]
    exact Binary.less_iff_of_whole? (Binary.whole?_ofInt Format.double_spacious (by decide)) hx
  have hsize : (UInt32.size : Int) = 2 ^ 32 := rfl
  unfold disguiseWhole
  simp only [hlow, hhigh]
  split
  · rfl
  · rw [Anchor.magnitudeOf, Binary.toIntClamped_of_whole? hx (by omega) (by omega)]

theorem disguiseLiteral_of_precise (hty : ty.isFloat = true) (depth : Nat)
    (h : Literal.ReadsAs e n) (hlow : 0 ≤ n) (hhigh : n ≤ 2 ^ 24) :
    (palette.disguiseLiteral depth e (.scalar ty) : Synth σ Disguise) =
      palette.disguiseMagnitude .float depth ty (UInt32.ofNat n.toNat) := by
  obtain ⟨x, hread, hx⟩ := h
  rw [disguiseLiteral_of_isFloat hty depth hread (Binary.isWhole_iff.2 ⟨n, hx⟩),
    disguiseWhole_of_whole? depth hx]
  exact if_neg (by omega)

/-- The magnitudes of the precise range are those of the domain of floats. -/
theorem ofNat_le_preciseLimit (hlow : 0 ≤ n) (hhigh : n ≤ 2 ^ 24) :
    UInt32.ofNat n.toNat ≤ preciseLimit ∧ ((UInt32.ofNat n.toNat).toNat : Int) = n := by
  have hlimit : preciseLimit.toNat = 2 ^ 24 := rfl
  have hnat : (UInt32.ofNat n.toNat).toNat = n.toNat :=
    UInt32.toNat_ofNat_of_lt' (by rw [UInt32.size]; omega)
  rw [UInt32.le_iff_toNat_le, hnat]
  omega

/-- Both forms of a disguised magnitude of a float type are worth it. -/
theorem eval_of_disguiseMagnitude (hty : ty.isFloat = true) {m : UInt32} (hm : m ≤ preciseLimit)
    {b : Bindings} (hb : b.Serves ty palette.uniforms) {depth : Nat} {source : σ} {k : Disguise}
    (h : outcome (palette.disguiseMagnitude .float depth ty m) source = .ok k) :
    ∃ v, Value.ofMagnitude? m ty = some v ∧ k.literal.eval b = .ok v ∧
      k.rewritten.eval b = .ok v := by
  have hhandles := Synthesizer.handles_of_isFloat hty
  obtain ⟨hliteral, hwritten⟩ := (disguiseMagnitude_ends hhandles depth hm).of_ok h
  obtain ⟨v, hv, heval⟩ := Synthesizer.eval_of_enter hliteral
  obtain ⟨w, hw, hrewritten⟩ := (Computed.of_written hwritten).eval hhandles hb
  rw [hv] at hw
  obtain rfl := Option.some.inj hw
  exact ⟨v, hv, heval b, hrewritten⟩

/-! ## Requests that succeed -/

/-- A literal that is disguised was read as a whole number, and is an integer that the type
takes or a magnitude of the precise range. -/
theorem of_disguiseLiteral_ok {depth : Nat} {shape : Shape} {source : σ} {k : Disguise}
    (h : outcome (palette.disguiseLiteral depth e shape) source = .ok k) :
    ∃ ty n, shape = .scalar ty ∧ Literal.ReadsAs e n ∧
      ((ty.Takes n ∧ outcome (palette.disguiseInteger depth (.ofInt n) ty) source = .ok k) ∨
        (ty.isFloat = true ∧ 0 ≤ n ∧ n ≤ 2 ^ 24 ∧
          outcome (palette.disguiseMagnitude .float depth ty (.ofNat n.toNat)) source = .ok k)) := by
  cases shape with
  | vector size ty => cases h
  | matrix columns rows ty => cases h
  | scalar ty =>
    cases hread : Literal.read e with
    | error failure =>
      rw [disguiseLiteral, hread] at h
      cases h
    | ok x =>
      by_cases hwhole : x.isWhole = true
      · obtain ⟨n, hx⟩ := Binary.isWhole_iff.1 hwhole
        refine ⟨ty, n, rfl, ⟨x, hread, hx⟩, ?_⟩
        by_cases hinteger : ty.isInteger = true
        · rw [disguiseLiteral_of_isInteger hinteger depth hread hx] at h
          split at h
          · cases h
          · exact .inl ⟨⟨hinteger, by omega, by omega⟩, h⟩
        · by_cases hfloat : ty.isFloat = true
          · rw [disguiseLiteral_of_isFloat hfloat depth hread hwhole,
              disguiseWhole_of_whole? depth hx] at h
            split at h
            · cases h
            · exact .inr ⟨hfloat, by omega, by omega, h⟩
          · rw [disguiseLiteral_of_isWhole depth hread hwhole, if_neg hinteger, if_neg hfloat] at h
            cases h
      · have hrequire : Literal.requireWhole x = .error (.notWhole x) := if_neg hwhole
        rw [disguiseLiteral, hread] at h
        change outcome ((liftM (Literal.requireWhole x) : Synth σ Double) >>= _) source = _ at h
        rw [hrequire] at h
        cases h

/-! ## Two ways to ask for an integer -/

/-- A literal that is read as an integer and the integer itself lead to the same run, with
the same result or failure and the same draws. The one exception are the negative integers
of an unsigned type: both ways refuse them without a draw, the literal as out of range and
the integer as negative. -/
theorem literal_agrees_with_integer (hty : ty.isInteger = true) (depth : Nat) {value : Int64}
    (h : Literal.ReadsAs e value.toInt) :
    (¬ (value.toInt < 0 ∧ ty = .u32) →
      (palette.disguiseLiteral depth e (.scalar ty) : Synth σ Disguise) =
        palette.disguiseInteger depth value ty) ∧
    (value.toInt < 0 → ty = .u32 →
      (palette.disguiseLiteral depth e (.scalar ty) : Synth σ Disguise) =
          throw (.outOfRange (.ofInt value.toInt) ty) ∧
        (palette.disguiseInteger depth value ty : Synth σ Disguise) =
          throw (.negativeUnsigned value.toInt)) := by
  refine ⟨disguiseLiteral_eq_disguiseInteger hty depth h, ?_⟩
  rintro hneg rfl
  exact ⟨disguiseLiteral_of_negative depth h hneg, disguiseInteger_of_negative depth hneg⟩

/-- The greatest unsigned word, written in hexadecimal, and a negative integer. -/
theorem literal_agrees_with_integer_ends :
    Literal.ReadsAs (.intLiteral "0xFFFFFFFF") 4294967295 ∧
      (disguiseLiteral ⟨5, .default, [Uniform.sample]⟩ 0 (.intLiteral "0xFFFFFFFF") (.scalar .u32) :
        Synth ChaCha Disguise) = disguiseInteger ⟨5, .default, [Uniform.sample]⟩ 0 4294967295 .u32 ∧
      Literal.ReadsAs (Expr.intLiteral "5").neg (-5) ∧
      (disguiseLiteral ⟨5, .default, [Uniform.sample]⟩ 0 (Expr.intLiteral "5").neg (.scalar .u32) :
        Synth ChaCha Disguise) = throw (.outOfRange (.ofInt (-5)) .u32) := by
  have hgreatest : Literal.ReadsAs (.intLiteral "0xFFFFFFFF") (4294967295 : Int64).toInt :=
    ⟨.ofNat 4294967295, by decide +kernel, by decide +kernel⟩
  have hnegative : Literal.ReadsAs (Expr.intLiteral "5").neg (-5 : Int64).toInt :=
    ⟨.ofInt (-5), by decide +kernel, by decide +kernel⟩
  exact ⟨hgreatest, (literal_agrees_with_integer rfl 0 hgreatest).1 (by decide), hnegative,
    ((literal_agrees_with_integer rfl 0 hnegative).2 (by decide) rfl).1⟩

/-- Minus five is refused for an unsigned type in two ways. -/
theorem negative_literal_disagrees :
    Literal.ReadsAs (Expr.intLiteral "5").neg (-5) ∧
      outcome (disguiseLiteral (⟨5, .default, []⟩ : Palette) 0 (Expr.intLiteral "5").neg
        (.scalar .u32)) (ChaCha.ofSeed 0) = .error (.outOfRange (.ofInt (-5)) .u32) ∧
      outcome (disguiseInteger (⟨5, .default, []⟩ : Palette) 0 (-5) .u32) (ChaCha.ofSeed 0) =
        .error (.negativeUnsigned (-5)) :=
  ⟨⟨.ofInt (-5), by decide +kernel, by decide +kernel⟩, by decide +kernel, by decide +kernel⟩

end Palette

end Camouflage
