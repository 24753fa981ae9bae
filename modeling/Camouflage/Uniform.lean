import Camouflage.Evaluation
import Camouflage.Literal.Reader

/-!
# Uniforms

A uniform is a scalar of a buffer whose contents are known before the shader runs. It
is named by an expression, and its contents are given as a literal. What the literal
means to the shader and what synthesis takes it to be are two functions:
`Bindings.ofUniforms` evaluates it, `Uniform.contents` reads it.
-/

namespace Camouflage

/-- A uniform: how to refer to it, a literal of its contents, and its type. -/
structure Uniform where
  reference : Expr
  literal : Expr
  ty : Scalar
  deriving DecidableEq, Repr

namespace Bindings

/-- Adds the value of a uniform as a shader holds it. If its literal has a value that
is none of its type, it keeps that value; without a value nothing is added. -/
def addUniform (b : Bindings) (u : Uniform) : Bindings :=
  match u.literal.eval b with
  | .ok v => b.bind u.reference ((v.concretize? u.ty).getD v)
  | .error _ => b

/-- The values of a list of uniforms. Of two with the same reference the later one
counts. -/
def ofUniforms (us : List Uniform) : Bindings := us.foldl addUniform empty

end Bindings

namespace Uniform

/-- The failure that synthesis cannot build on a uniform. -/
def unsupported (u : Uniform) : Failure := .unsupportedUniform u.reference.text u.ty

/-- The contents as an integer of the type, by way of double precision. -/
def integerContents (u : Uniform) (number : Double) (ofInt? : Int → Option Value) :
    Except Failure Value :=
  if number.isWhole then
    match ofInt? (number.toIntClamped Int64.minValue.toInt Int64.maxValue.toInt) with
    | some v => .ok v
    | none => .error u.unsupported
  else
    .error u.unsupported

/-- The contents in single precision, rounded once as a shader reads them. -/
def singleContents (u : Uniform) : Except Failure Value :=
  match u.literal.eval .empty with
  | .ok v =>
    match v.concretize? .f32 with
    | some w => .ok w
    | none => .error u.unsupported
  | .error _ => .error u.unsupported

/-- The value that synthesis takes a uniform to hold. Buffers hold concrete types
only. -/
def contents (u : Uniform) : Except Failure Value := do
  let number ← Literal.read u.literal
  match u.ty with
  | .i32 => u.integerContents number fun n => (int32? n).map .i32
  | .u32 => u.integerContents number fun n => (uint32? n).map .u32
  | .f32 => u.singleContents
  | .bool => .error u.unsupported
  | .abstractInt | .abstractFloat => .error (.unreachableType u.ty)

end Uniform

end Camouflage
