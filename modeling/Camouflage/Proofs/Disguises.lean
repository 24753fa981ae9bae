import Camouflage.Proofs.Computed
import Camouflage.Proofs.Readings

/-!
# What the entry points give

An integer is disguised as its magnitude, or as the negation of it (`Palette.Disguised`),
and a whole number of a float type as its magnitude. Requests that are not handled are
rejected before anything is drawn; whatever else fails is a refusal of the magnitude.
-/

namespace Camouflage

open Synth

/-- Whether an integer is one that synthesis takes for a type. -/
def Scalar.Takes (ty : Scalar) (n : Int) : Prop :=
  ty.isInteger = true ∧ ty.integerRange.1 ≤ n ∧ n ≤ ty.integerRange.2

theorem Scalar.Takes.natAbs_lt {ty : Scalar} {n : Int} (h : ty.Takes n) : n.natAbs < 2 ^ 32 := by
  obtain ⟨hinteger, hlow, hhigh⟩ := h
  have hmin := Int32.toInt_minValue
  have hmax := Int32.toInt_maxValue
  have hsize : (UInt32.size : Int) = 2 ^ 32 := rfl
  cases ty with
  | i32 =>
    simp only [Scalar.integerRange] at hlow hhigh
    omega
  | u32 =>
    simp only [Scalar.integerRange] at hlow hhigh
    omega
  | abstractInt =>
    simp only [Scalar.integerRange] at hlow hhigh
    omega
  | _ => cases hinteger

theorem magnitudeOf_ok {n : Int} (h : n.natAbs < 2 ^ 32) :
    magnitudeOf n = .ok (UInt32.ofNat n.natAbs) ∧ (UInt32.ofNat n.natAbs).toNat = n.natAbs := by
  have hsize : n.natAbs < UInt32.size := by
    rw [UInt32.size]
    exact h
  exact ⟨if_pos hsize, UInt32.toNat_ofNat_of_lt' hsize⟩

/-- An integer that is taken has a literal, which is worth it. -/
theorem Scalar.Takes.exists_write {ty : Scalar} {value : Int64} (h : ty.Takes value.toInt) :
    ∃ literal v, Literal.write value ty = .ok literal ∧ v.scalar = ty ∧
      v.integer? = some value.toInt ∧ ∀ b, literal.eval b = .ok v := by
  obtain ⟨hinteger, hlow, hhigh⟩ := h
  cases ty with
  | i32 =>
    have hword : (Int32.ofInt value.toInt).toInt = value.toInt :=
      Int32.toInt_ofInt_of_le hlow (Int.lt_of_le_of_lt hhigh (by decide))
    have hvalue : (Int32.ofInt value.toInt).toInt64 = value :=
      Int64.toInt_inj.1 (by rw [Int32.toInt_toInt64, hword])
    obtain ⟨e, hwrite, heval⟩ := Literal.write_i32 (Int32.ofInt value.toInt)
    rw [hvalue] at hwrite
    exact ⟨e, .i32 (.ofInt value.toInt), hwrite, rfl, congrArg some hword, heval⟩
  | u32 =>
    have hsize : value.toInt.toNat < UInt32.size := by
      simp only [Scalar.integerRange] at hlow hhigh
      omega
    have hnat : (UInt32.ofNat value.toInt.toNat).toNat = value.toInt.toNat :=
      UInt32.toNat_ofNat_of_lt' hsize
    have hword : ((UInt32.ofNat value.toInt.toNat).toNat : Int) = value.toInt := by
      rw [hnat]
      exact Int.toNat_of_nonneg hlow
    have hvalue : (UInt32.ofNat value.toInt.toNat).toUInt64.toInt64 = value :=
      Int64.toInt_inj.1 (by rw [Literal.toInt_toUInt64_toInt64, hword])
    obtain ⟨e, hwrite, heval⟩ := Literal.write_u32 (UInt32.ofNat value.toInt.toNat)
    rw [hvalue] at hwrite
    exact ⟨e, .u32 (.ofNat value.toInt.toNat), hwrite, rfl, congrArg some hword, heval⟩
  | abstractInt =>
    obtain ⟨e, hwrite, heval⟩ := Literal.write_abstractInt
      (Int.lt_of_lt_of_le (by decide) hlow : Int64.minValue.toInt < value.toInt)
    exact ⟨e, _, hwrite, rfl, rfl, heval⟩
  | _ => cases hinteger

namespace Palette

/-- The disguises of an integer: a magnitude written as it is, or the negation of one. -/
inductive Disguised {J : Type} [Membership Uniform J] (palette : Palette J) (depth : Nat)
    (ty : Scalar) (value : Int64) : Disguise → Prop
  | magnitude {n literal rewritten} :
      0 ≤ value.toInt ∨ (ty = .i32 ∧ value.toInt = Int32.minValue.toInt) →
      n.toNat = value.toInt.natAbs → Synthesizer.integer.enter ty n = .ok literal →
      palette.Written .integer ty (palette.maxDepth - depth) depth n rewritten →
      Disguised palette depth ty value ⟨literal, rewritten⟩
  | negation {n literal rewritten} :
      value.toInt < 0 → (ty = .i32 → value.toInt ≠ Int32.minValue.toInt) →
      n.toNat = value.toInt.natAbs → Literal.write value ty = .ok literal →
      palette.Written .integer ty (palette.maxDepth - depth) depth n rewritten →
      Disguised palette depth ty value ⟨literal, rewritten.neg⟩

/-- Why an integer may not be disguised: it is none of the type, or its magnitude is
refused. -/
def RefusedInteger {J : Type} [Membership Uniform J] (palette : Palette J) (depth : Nat)
    (ty : Scalar) (value : Int64) (failure : Failure) : Prop :=
  (¬ ty.Takes value.toInt ∧ failure.isInternal = false) ∨
  (ty.Takes value.toInt ∧ palette.Refused .integer ty (palette.maxDepth - depth) depth failure)

variable {σ : Type} [WordSource σ] {J : Type} [Membership Uniform J] [ShaderJob J]
variable {palette : Palette J} {ty : Scalar}

theorem disguiseMagnitude_ends {via : Synthesizer} (hhandles : via.handles ty = true) (depth : Nat)
    {n : UInt32} (hn : n ≤ (via.domain ty).largest) :
    Ends (palette.disguiseMagnitude via depth ty n : Synth σ Disguise)
      (fun k => via.enter ty n = .ok k.literal ∧
        palette.Written via ty (palette.maxDepth - depth) depth n k.rewritten)
      (palette.Refused via ty (palette.maxDepth - depth) depth) := by
  obtain ⟨literal, hliteral⟩ := Synthesizer.enter_ok hhandles hn
  unfold disguiseMagnitude
  rw [hliteral]
  refine Ends.bind_ok ((express_ends hhandles _ depth hn).bind ?_)
  intro rewritten hwritten
  exact Ends.pure ⟨rfl, hwritten⟩

/-- Every run on an integer that is taken disguises it or is refused its magnitude, and any
other integer is rejected for what it is. -/
theorem disguiseInteger_ends (depth : Nat) (value : Int64) :
    Ends (palette.disguiseInteger depth value ty : Synth σ Disguise)
      (fun k => ty.Takes value.toInt ∧ palette.Disguised depth ty value k)
      (palette.RefusedInteger depth ty value) := by
  unfold disguiseInteger
  dsimp only
  refine Ends.ite (fun hinteger => Ends.throw (.inl ⟨?_, rfl⟩)) fun hinteger => ?_
  · rintro ⟨htrue, -⟩
    rw [htrue] at hinteger
    cases hinteger
  refine Ends.ite (fun hnegative => Ends.throw (.inl ⟨?_, rfl⟩)) fun _ => ?_
  · rintro ⟨-, hlow, -⟩
    rw [hnegative.2] at hlow
    exact absurd hlow (Int.not_le.2 hnegative.1)
  refine Ends.ite (fun hrange => Ends.throw (.inl ⟨?_, rfl⟩)) fun hrange => ?_
  · rintro ⟨-, hlow, hhigh⟩
    omega
  -- what passes the three checks is taken
  have htakes : ty.Takes value.toInt := ⟨by simpa using hinteger, by omega, by omega⟩
  obtain ⟨hmagnitude, hnat⟩ := magnitudeOf_ok htakes.natAbs_lt
  have hn := Domain.le_largest (Synthesizer.domain_integer_ne ty) (.ofNat value.toInt.natAbs)
  rw [hmagnitude]
  have hends : Ends (palette.disguiseMagnitude .integer depth ty (.ofNat value.toInt.natAbs) :
      Synth σ Disguise) _ (palette.RefusedInteger depth ty value) :=
    (disguiseMagnitude_ends (Synthesizer.handles_of_isInteger htakes.1) depth hn).mono
      (fun _ h => h) (fun _ hrefused => Or.inr (And.intro htakes hrefused))
  refine Ends.ite (fun hplain => Ends.bind_ok (hends.mono ?_ fun _ h => h)) fun hnegated =>
    Ends.bind_ok (hends.bind ?_)
  · rintro ⟨literal, rewritten⟩ ⟨hliteral, hwritten⟩
    exact ⟨htakes, .magnitude hplain hnat hliteral hwritten⟩
  · rintro ⟨literal, rewritten⟩ ⟨hliteral, hwritten⟩
    obtain ⟨hneg, hleast⟩ := not_or.1 hnegated
    have hneg := Int.not_le.1 hneg
    obtain ⟨negated, -, hwrite, -⟩ := htakes.exists_write
    rw [hwrite]
    refine Ends.bind_ok (Ends.pure ⟨htakes, .negation hneg ?_ hnat hwrite hwritten⟩)
    intro hty hvalue
    exact hleast ⟨hty, hvalue⟩

/-! ## Floats -/

/-- The magnitude of a number that is neither negative nor beyond the precise range. -/
theorem magnitudeOf_le {x : Double} (hlow : x.less (.zero false) = false)
    (hhigh : (Binary.ofNat preciseLimit.toNat : Double).less x = false) :
    Anchor.magnitudeOf x ≤ preciseLimit := by
  have hlimit : preciseLimit.toNat = 2 ^ 24 := rfl
  have hsize : (UInt32.size : Int) = 2 ^ 32 := rfl
  have hone := Format.double.one_pos
  have hwide : preciseLimit.toNat ≤ 2 ^ Format.double.precision := by decide
  have hinteger : ∀ n : Int, n ≤ preciseLimit.toNat →
      UInt32.ofNat (max 0 (min (UInt32.size - 1 : Int) n)).toNat ≤ preciseLimit := by
    intro n hn
    rw [UInt32.le_iff_toNat_le, UInt32.toNat_ofNat_of_lt' (by rw [UInt32.size]; omega)]
    omega
  have hbound := (Format.double_spacious.fits hwide).1
  rw [Binary.ofNat_eq Format.double_spacious hwide] at hhigh
  unfold Anchor.magnitudeOf
  cases x with
  | nan => exact UInt32.zero_le
  | infinite negative =>
    cases negative with
    | true =>
      have hpos := Format.double.bound_pos
      simp only [Binary.less, Binary.position?, Binary.zero, decide_eq_false_iff_not] at hlow
      omega
    | false =>
      simp only [Binary.less, Binary.position?, decide_eq_false_iff_not] at hhigh
      exact absurd (Int.ofNat_lt.2 hbound) hhigh
  | finite negative units h =>
    refine hinteger _ ?_
    cases negative with
    | true =>
      -- a negative zero passes the checks too
      show -((units / Format.double.one : Nat) : Int) ≤ _
      exact Int.le_trans (Int.neg_nonpos_of_nonneg (Int.natCast_nonneg _)) (Int.natCast_nonneg _)
    | false =>
      simp only [Binary.less, Binary.position?, decide_eq_false_iff_not] at hhigh
      have hunits : units ≤ preciseLimit.toNat * Format.double.one :=
        Nat.le_of_not_lt fun hlt => hhigh (Int.ofNat_lt.2 hlt)
      exact Int.ofNat_le.2 (Nat.div_le_of_le_mul (by rwa [Nat.mul_comm]))

/-- Every run on a number of a float type disguises its magnitude or is refused, unless
the number is outside the precise range. -/
theorem disguiseWhole_ends (hty : ty.isFloat = true) (depth : Nat) (x : Double) :
    Ends (palette.disguiseWhole depth x ty : Synth σ Disguise)
      (fun k => Synthesizer.float.enter ty (Anchor.magnitudeOf x) = .ok k.literal ∧
        palette.Written .float ty (palette.maxDepth - depth) depth (Anchor.magnitudeOf x)
          k.rewritten)
      (fun failure => failure = .outsidePreciseRange x ∨
        palette.Refused .float ty (palette.maxDepth - depth) depth failure) := by
  unfold disguiseWhole
  refine Ends.ite (fun _ => Ends.throw (.inl rfl)) fun hrange => ?_
  obtain ⟨hlow, hhigh⟩ := not_or.1 hrange
  have hle := magnitudeOf_le (Bool.eq_false_iff.2 hlow) (Bool.eq_false_iff.2 hhigh)
  exact (disguiseMagnitude_ends (Synthesizer.handles_of_isFloat hty) depth hle).mono
    (fun _ h => h) fun _ => .inr

/-- On a whole number of a float type the literal only matters by its number. -/
theorem disguiseLiteral_of_isFloat (hty : ty.isFloat = true) (depth : Nat) {e : Expr} {x : Double}
    (hread : Literal.read e = .ok x) (hwhole : x.isWhole = true) :
    (palette.disguiseLiteral depth e (.scalar ty) : Synth σ Disguise) =
      palette.disguiseWhole depth x ty := by
  have hinteger : ty.isInteger = false := by
    cases ty with
    | f32 => rfl
    | abstractFloat => rfl
    | _ => cases hty
  have hrequire : Literal.requireWhole x = .ok x := if_pos hwhole
  unfold disguiseLiteral
  rw [hread]
  show ((liftM (Literal.requireWhole x) : Synth σ Double) >>= _) = _
  rw [hrequire]
  show (if ty.isInteger = true then _ else if ty.isFloat = true then _ else _) = _
  rw [hinteger, hty]
  rfl

end Palette

end Camouflage
