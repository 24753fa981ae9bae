import Camouflage.Synthesis.Strategy

/-!
# Synthesis

Writes a known value as an expression that evaluates to it. A magnitude is written by
recursion on the levels left below the depth limit: at each level a strategy is chosen
by weight, and on the last one only the literal remains. A negative value is the
negation of its magnitude.
-/

namespace Camouflage

/-- What synthesis works with, apart from the source of randomness: the depth limit, the
weights of the strategies, and the job whose uniforms values are derived from. -/
structure Palette (J : Type := List Uniform) where
  maxDepth : Nat
  weights : WeightTable
  uniforms : J

/-- A known value in two forms: the literal that denotes it, or its negation, and an
expression of the same value. -/
structure Disguise where
  literal : Expr
  rewritten : Expr
  deriving DecidableEq, Repr

/-- The least and the greatest value of an integer type. Abstract integers are kept to
magnitudes of 32 bits. -/
def Scalar.integerRange : Scalar → Int × Int
  | .i32 => (Int32.minValue.toInt, Int32.maxValue.toInt)
  | .u32 => (0, UInt32.size - 1)
  | _ => (-(UInt32.size - 1), UInt32.size - 1)

/-- The magnitude of an integer, as a word. -/
def magnitudeOf (n : Int) : Except Failure UInt32 :=
  if n.natAbs < UInt32.size then .ok (UInt32.ofNat n.natAbs)
  else .error (.internal .magnitudeTooLarge)

namespace Palette

variable {σ : Type} [WordSource σ]
variable {J : Type}

/-! ## Magnitudes -/

/-- The strategies for a type at a depth, with their weights. A uniform holds a concrete
type and cannot help with an abstract one. -/
def candidates (palette : Palette J) (ty : Scalar) (depth : Nat) : List (Strategy × UInt32) :=
  let usable := Strategy.all.filter fun s => !(ty.isAbstract && s == .uniform)
  usable.map fun s => (s, palette.weights.weight s depth)

/-- The ways to write a magnitude at a depth, given how each strategy writes it. None is
run before it is chosen. -/
def alternatives (palette : Palette J) (ty : Scalar) (depth : Nat)
    (write : Strategy → Synth σ Expr) :
    List (Choice.Alternative σ (Except Failure Expr) × UInt32) :=
  Choice.line <| (palette.candidates ty depth).map fun entry =>
    (⟨entry.1, (write entry.1).run⟩, entry.2)

/-- To run the alternative that is chosen is to choose a strategy and write by it. -/
theorem draw_run_alternatives (palette : Palette J) (ty : Scalar) (depth : Nat)
    (write : Strategy → Synth σ Expr) (otherwise : Synth σ Expr) :
    (do
      match ← draw (Choice.run (palette.alternatives ty depth write)) with
      | some written => written
      | none => otherwise) =
    (do
      match ← draw (Choice.choose (palette.candidates ty depth)) with
      | some strategy => write strategy
      | none => otherwise) := by
  rw [Choice.run, alternatives, Choice.choose_line,
    Choice.choose_map fun s => (⟨s, (write s).run⟩ : Choice.Alternative σ (Except Failure Expr))]
  refine ExceptT.ext ?_
  simp only [draw, ExceptT.run_bind_lift, map_eq_pure_bind, bind_assoc, pure_bind]
  refine bind_congr fun chosen => ?_
  cases chosen with
  | none => rfl
  | some strategy => rfl

variable [Membership Uniform J] [ShaderJob J]

/-- Writes a magnitude with so many levels left, at a depth. -/
def express (palette : Palette J) (via : Synthesizer) (ty : Scalar) :
    (levels depth : Nat) → UInt32 → Synth σ Expr
  | 0, _, magnitude => do
    let literal ← via.enter ty magnitude
    return literal
  | levels + 1, depth, magnitude => do
    let literal ← via.enter ty magnitude
    let deeper := palette.express via ty levels (depth + 1)
    let alternatives := palette.alternatives ty depth fun strategy =>
      strategy.write via palette.uniforms ty deeper literal magnitude
    match ← draw (Choice.run alternatives) with
    | some written => written
    | none => throw (.noStrategy depth)

/-- A level of synthesis chooses a strategy and writes by it. -/
theorem express_succ (palette : Palette J) (via : Synthesizer) (ty : Scalar) (levels depth : Nat)
    (magnitude : UInt32) :
    (palette.express via ty (levels + 1) depth magnitude : Synth σ Expr) = (do
      let literal ← via.enter ty magnitude
      match ← draw (Choice.choose (palette.candidates ty depth)) with
      | some strategy =>
        let deeper := palette.express via ty levels (depth + 1)
        strategy.write via palette.uniforms ty deeper literal magnitude
      | none => throw (.noStrategy depth)) := by
  rw [express]
  exact bind_congr fun literal => draw_run_alternatives palette ty depth _ _

/-- Whether a value at a depth can still be composed of others. -/
def goesDeeper (palette : Palette J) (depth : Nat) : Bool := depth < palette.maxDepth

/-- Disguises a magnitude from a depth on. -/
def disguiseMagnitude (palette : Palette J) (via : Synthesizer) (depth : Nat) (ty : Scalar)
    (magnitude : UInt32) : Synth σ Disguise := do
  let literal ← via.enter ty magnitude
  let rewritten ← palette.express via ty (palette.maxDepth - depth) depth magnitude
  return ⟨literal, rewritten⟩

/-! ## Values -/

/-- Disguises an integer. The least signed 32-bit word is its own negation, so it is
written as a magnitude. -/
def disguiseInteger (palette : Palette J) (depth : Nat) (value : Int64) (ty : Scalar) :
    Synth σ Disguise := do
  let n := value.toInt
  let (least, greatest) := ty.integerRange
  if !ty.isInteger then
    throw (.unsupportedType (.scalar ty))
  else if n < 0 ∧ ty = .u32 then
    throw (.negativeUnsigned n)
  else if n < least ∨ greatest < n then
    throw (.outOfRange (.ofInt n) ty)
  else if 0 ≤ n ∨ (ty = .i32 ∧ n = Int32.minValue.toInt) then
    palette.disguiseMagnitude .integer depth ty (← magnitudeOf n)
  else
    let positive ← palette.disguiseMagnitude .integer depth ty (← magnitudeOf n)
    return ⟨← Literal.write value ty, positive.rewritten.neg⟩

/-- Disguises a whole number of a float type, which must be in the precise range. -/
def disguiseWhole (palette : Palette J) (depth : Nat) (number : Double) (ty : Scalar) :
    Synth σ Disguise := do
  if number.less (.zero false) ∨ (Binary.ofNat preciseLimit.toNat).less number then
    throw (.outsidePreciseRange number)
  else
    palette.disguiseMagnitude .float depth ty (Anchor.magnitudeOf number)

/-- Disguises the value of a literal as one of a scalar type. Every form of literal with a
whole value is accepted, whatever type it has itself. -/
def disguiseLiteral (palette : Palette J) (depth : Nat) (e : Expr) (shape : Shape) :
    Synth σ Disguise := do
  match shape.scalar? with
  | none => throw (.unsupportedType shape)
  | some ty =>
    let number ← Literal.requireWhole (← Literal.read e)
    if ty.isInteger then
      let (least, greatest) := ty.integerRange
      if number.less (.ofInt least) ∨ (Binary.ofInt greatest).less number then
        throw (.outOfRange number ty)
      else
        let n := number.toIntClamped Int64.minValue.toInt Int64.maxValue.toInt
        palette.disguiseInteger depth (.ofInt n) ty
    else if ty.isFloat then
      palette.disguiseWhole depth number ty
    else
      throw (.unsupportedType shape)

end Palette

end Camouflage
