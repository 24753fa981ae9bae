import Camouflage.Binary.Arithmetic
import Camouflage.Evaluation.Fault

/-!
# Values and conversions

A value carries its scalar type. The abstract integers are 64-bit words, the
abstract floats double precision numbers. Two kinds of conversion are kept apart:
`Value.concretize` is the one an abstract value undergoes on meeting a concrete
type, and refuses what does not fit; `Value.convert` is the one a constructor
states, and wraps, truncates and clamps.
-/

namespace Camouflage

/-- A scalar value. Truth values are not evaluated. -/
inductive Value where
  | i32 (n : Int32)
  | u32 (n : UInt32)
  | abstractInt (n : Int64)
  | f32 (x : Single)
  | abstractFloat (x : Double)
  deriving DecidableEq

/-! ## Integers in range -/

/-- The signed 32-bit word of an integer that has one. -/
def int32? (n : Int) : Option Int32 :=
  if Int32.minValue.toInt ≤ n ∧ n ≤ Int32.maxValue.toInt then some (Int32.ofInt n) else none

/-- The unsigned 32-bit word of an integer that has one. -/
def uint32? (n : Int) : Option UInt32 :=
  if 0 ≤ n ∧ n < UInt32.size then some (UInt32.ofNat n.toNat) else none

/-- The signed 64-bit word of an integer that has one. -/
def int64? (n : Int) : Option Int64 :=
  if Int64.minValue.toInt ≤ n ∧ n ≤ Int64.maxValue.toInt then some (Int64.ofInt n) else none

theorem int32?_eq_some_iff {n : Int} {w : Int32} : int32? n = some w ↔ w.toInt = n := by
  have hmin := Int32.toInt_minValue
  have hmax := Int32.toInt_maxValue
  unfold int32?
  constructor
  · intro h
    split at h
    · rw [← Option.some.inj h]
      exact Int32.toInt_ofInt_of_le (by omega) (by omega)
    · cases h
  · rintro rfl
    have hlow := w.le_toInt
    have hhigh := w.toInt_lt
    rw [if_pos (by omega), Int32.ofInt_toInt]

theorem uint32?_eq_some_iff {n : Int} {w : UInt32} : uint32? n = some w ↔ (w.toNat : Int) = n := by
  have hsize : UInt32.size = 2 ^ 32 := rfl
  unfold uint32?
  constructor
  · intro h
    split at h
    · rw [← Option.some.inj h, UInt32.toNat_ofNat_of_lt' (by omega)]
      omega
    · cases h
  · rintro rfl
    have hlt := w.toNat_lt
    rw [if_pos (by omega), Int.toNat_natCast, UInt32.ofNat_toNat]

theorem int64?_eq_some_iff {n : Int} {w : Int64} : int64? n = some w ↔ w.toInt = n := by
  have hmin := Int64.toInt_minValue
  have hmax := Int64.toInt_maxValue
  unfold int64?
  constructor
  · intro h
    split at h
    · rw [← Option.some.inj h]
      exact Int64.toInt_ofInt_of_le (by omega) (by omega)
    · cases h
  · rintro rfl
    have hlow := w.le_toInt
    have hhigh := w.toInt_lt
    rw [if_pos (by omega), Int64.ofInt_toInt]

/-! ## Truncation of single precision numbers -/

namespace Binary

/-- The largest single precision number within the signed 32-bit range. -/
def greatestInt32 : Single := ofInt 2147483520

/-- The largest single precision number within the unsigned 32-bit range. -/
def greatestUInt32 : Single := ofInt 4294967040

/-- The integer part of a number, clamped to the single precision numbers within
the signed 32-bit range. A NaN gives zero. -/
def toInt32 (x : Single) : Int32 :=
  Int32.ofInt <|
    (clamp (ofInt Int32.minValue.toInt) greatestInt32 x.trunc).toIntClamped
      Int32.minValue.toInt Int32.maxValue.toInt

/-- The integer part of a number, clamped to the single precision numbers within
the unsigned 32-bit range. A NaN gives zero. -/
def toUInt32 (x : Single) : UInt32 :=
  UInt32.ofNat <|
    ((clamp (zero false) greatestUInt32 x.trunc).toIntClamped 0 (UInt32.size - 1)).toNat

end Binary

namespace Value

/-- The type of a value. -/
def scalar : Value → Scalar
  | i32 _ => .i32
  | u32 _ => .u32
  | abstractInt _ => .abstractInt
  | f32 _ => .f32
  | abstractFloat _ => .abstractFloat

/-- The bits of an integer value, modulo two to the power of 32. -/
def bits32? : Value → Option UInt32
  | i32 n => some n.toUInt32
  | u32 n => some n
  | abstractInt n => some n.toUInt64.toUInt32
  | f32 _ | abstractFloat _ => none

/-- The number of a value in double precision. -/
def toDouble : Value → Double
  | i32 n => .ofInt n.toInt
  | u32 n => .ofNat n.toNat
  | abstractInt n => .ofInt n.toInt
  | f32 x => x.convert .double
  | abstractFloat x => x

/-- The zero of a type. -/
def zero? : Scalar → Option Value
  | .bool => none
  | .i32 => some (i32 0)
  | .u32 => some (u32 0)
  | .abstractInt => some (abstractInt 0)
  | .f32 => some (f32 (.zero false))
  | .abstractFloat => some (abstractFloat (.zero false))

/-- The value as one of a given type, on meeting an operand of that type. Only an
abstract value changes, and an abstract integer only to a type whose range holds
it. -/
def concretize? (v : Value) (ty : Scalar) : Option Value :=
  if v.scalar = ty then
    some v
  else
    match v, ty with
    | abstractInt n, .i32 => (int32? n.toInt).map i32
    | abstractInt n, .u32 => (uint32? n.toInt).map u32
    | abstractInt n, .f32 => some (f32 (.ofInt n.toInt))
    | abstractInt n, .abstractFloat => some (abstractFloat (.ofInt n.toInt))
    | abstractFloat x, .f32 => some (f32 (x.convert .single))
    | _, _ => none

/-- `concretize?`, naming the two types where there is no such value. -/
def concretize (v : Value) (ty : Scalar) : Except Fault Value :=
  match v.concretize? ty with
  | some w => .ok w
  | none => .error (.invalidConversion v.scalar ty)

/-- The value that a constructor of a type makes of its argument. Concrete integers
keep their bits, floats are truncated and clamped, and a double precision number
is rounded to single precision before either. -/
def convert (v : Value) (ty : Scalar) : Except Fault Value :=
  match v, ty with
  | i32 n, .i32 => .ok (i32 n)
  | u32 n, .i32 => .ok (i32 n.toInt32)
  | f32 x, .i32 => .ok (i32 x.toInt32)
  | abstractFloat x, .i32 => .ok (i32 (x.convert .single).toInt32)
  | i32 n, .u32 => .ok (u32 n.toUInt32)
  | u32 n, .u32 => .ok (u32 n)
  | f32 x, .u32 => .ok (u32 x.toUInt32)
  | abstractFloat x, .u32 => .ok (u32 (x.convert .single).toUInt32)
  | i32 n, .f32 => .ok (f32 (.ofInt n.toInt))
  | u32 n, .f32 => .ok (f32 (.ofNat n.toNat))
  | f32 x, .f32 => .ok (f32 x)
  | abstractFloat x, .f32 => .ok (f32 (x.convert .single))
  | abstractInt n, .i32 | abstractInt n, .u32 | abstractInt n, .f32 => (abstractInt n).concretize ty
  | v, ty => .error (.invalidConversion v.scalar ty)

/-- Concretization to a type gives a value of that type. -/
theorem scalar_of_concretize? {v w : Value} {ty : Scalar} (h : v.concretize? ty = some w) :
    w.scalar = ty := by
  unfold concretize? at h
  split at h
  · rename_i hty
    rw [← Option.some.inj h, hty]
  · split at h
    · obtain ⟨_, _, rfl⟩ := Option.map_eq_some_iff.1 h
      rfl
    · obtain ⟨_, _, rfl⟩ := Option.map_eq_some_iff.1 h
      rfl
    · rw [← Option.some.inj h]; rfl
    · rw [← Option.some.inj h]; rfl
    · rw [← Option.some.inj h]; rfl
    · contradiction

end Value

end Camouflage
