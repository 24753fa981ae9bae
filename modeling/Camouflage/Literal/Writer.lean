import Camouflage.Binary.Arithmetic
import Camouflage.Expr
import Camouflage.Failure

/-!
# Writing literals

An integer literal carries an `i` or a `u` when its type is concrete and nothing when it
is abstract. A float literal carries an `f` when it is concrete; an abstract one is told
from an integer by a fraction, which is `.0` on a whole number. There are no negative
literals: a negative number is the negation of a literal.
-/

namespace Camouflage

namespace Literal

/-- The literal of a magnitude, by the kind of its type. -/
def ofMagnitude (n : Nat) (suffix : String) (kind : String → Expr) : Expr :=
  kind (String.ofList (Numeral.ofNat n) ++ suffix)

/-- A literal behind the sign of the number it is a magnitude of. -/
def signed (n : Int) (suffix : String) (kind : String → Expr) : Expr :=
  if n < 0 then (ofMagnitude n.natAbs suffix kind).neg else ofMagnitude n.natAbs suffix kind

/-- Whether rounding an integer to a format and clamping the result to 64 bits gives
the integer back. -/
def survives (f : Format) (n : Int) : Bool :=
  (Binary.ofInt n : Binary f).toIntClamped Int64.minValue.toInt Int64.maxValue.toInt == n

/-- A literal of a type that denotes a number.

The least signed 32-bit word has no positive counterpart, so its literal is the
conversion of an abstract one: without the conversion its type would stay abstract. -/
def write (word : Int64) (ty : Scalar) : Except Failure Expr :=
  let n := word.toInt
  let outOfRange := .error (.outOfRange (.ofInt n) ty)
  match ty with
  | .bool => .error (.unsupportedType (.scalar .bool))
  | .i32 =>
    if n < Int32.minValue.toInt ∨ Int32.maxValue.toInt < n then outOfRange
    else if n = Int32.minValue.toInt then .ok (.construct .i32 [signed n "" .intLiteral])
    else .ok (signed n "i" .intLiteral)
  | .u32 => if n < 0 ∨ UInt32.size ≤ n then outOfRange else .ok (signed n "u" .intLiteral)
  | .abstractInt => .ok (signed n "" .intLiteral)
  | .f32 => if survives .single n then .ok (signed n "f" .floatLiteral) else outOfRange
  | .abstractFloat => if survives .double n then .ok (signed n ".0" .floatLiteral) else outOfRange

/-- A literal of a magnitude of 32 bits. In the signed type a magnitude beyond its
range stands for the negative number with the same bits. -/
def writeMagnitude (magnitude : UInt32) (ty : Scalar) : Except Failure Expr :=
  match ty with
  | .i32 => write magnitude.toInt32.toInt64 ty
  | _ => write magnitude.toUInt64.toInt64 ty

end Literal

end Camouflage
