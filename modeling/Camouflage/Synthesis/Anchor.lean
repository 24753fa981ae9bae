import Camouflage.Literal.Writer
import Camouflage.Uniform

/-!
# Anchors

An anchor is an expression over a uniform that is known to hold a magnitude of the
wanted type. An integer anchor converts the uniform at most. A float anchor must be a
whole number that single precision holds exactly with all its neighbours: a fraction is
cut off, and a number outside that range is reduced into it.
-/

namespace Camouflage

/-- Up to this number every whole number is one of single precision. -/
def preciseLimit : UInt32 := 16777216

/-- An expression over a uniform, and the magnitude that it holds. -/
structure Anchor where
  expr : Expr
  magnitude : UInt32
  deriving DecidableEq, Repr

namespace Anchor

/-- The value of an expression over one uniform of a known value. -/
def evaluate (e : Expr) (u : Uniform) (v : Value) : Except Failure Value :=
  match e.eval (Bindings.empty.bind u.reference v) with
  | .ok w => .ok w
  | .error _ => .error (.internal .anchorWithoutValue)

/-- An anchor of a concrete integer type. Every conversion to one ends within 32 bits,
so nothing is reduced. -/
def ofInteger (u : Uniform) (v : Value) (ty : Scalar) : Except Failure Anchor :=
  if ty = .i32 ∨ ty = .u32 then do
    let expr := if v.scalar = ty then u.reference else .construct ty [u.reference]
    match (← evaluate expr u v).bits32? with
    | some magnitude => .ok ⟨expr, magnitude⟩
    | none => .error (.internal .anchorNotInteger)
  else
    .error (.unreachableType ty)

/-- Whether a number can be an anchor as it is. A negative zero compares as zero but
can be told from it in a shader, so it cannot. -/
def isPrecise (x : Double) : Bool :=
  match x with
  | .finite false .. => !(Binary.ofNat preciseLimit.toNat : Double).less x
  | _ => false

/-- The whole part of a number that can be an anchor. -/
def magnitudeOf (x : Double) : UInt32 :=
  UInt32.ofNat (x.toIntClamped 0 (UInt32.size - 1)).toNat

/-- The uniform itself, without its fraction if it has one. An infinity counts as a
fraction. -/
def base (u : Uniform) (v : Value) : Except Failure Expr :=
  match v with
  | .f32 x => .ok (if x.isWhole then u.reference else .call "trunc" [u.reference])
  | .i32 _ | .u32 _ => .ok u.reference
  | .abstractInt _ | .abstractFloat _ => .error (.unreachableType v.scalar)

/-- A magnitude reduced to the precise range while it is still an integer, so that the
conversion back is exact. -/
def reduced (base : Expr) : Except Failure Expr := do
  let modulus ← Literal.write (preciseLimit.toUInt64.toInt64 + 1) .u32
  return .construct .f32 [.binary .modulo (.construct .u32 [.call "abs" [base]]) modulus]

/-- An anchor of single precision. -/
def ofSingle (u : Uniform) (v : Value) (ty : Scalar) : Except Failure Anchor :=
  if ty = .f32 then do
    let base ← base u v
    let x := (← evaluate base u v).toDouble
    if isPrecise x then
      .ok ⟨if v.scalar = .f32 then base else .construct .f32 [base], magnitudeOf x⟩
    else
      let expr ← reduced base
      let x := (← evaluate expr u v).toDouble
      if isPrecise x then .ok ⟨expr, magnitudeOf x⟩ else .error (.internal .anchorTooLarge)
  else
    .error (.unreachableType ty)

end Anchor

end Camouflage
