import Camouflage.Synthesis.Choice
import Camouflage.Synthesis.Job
import Camouflage.Synthesis.Synthesizer
import Camouflage.Synthesis.WrappedQuotient

/-!
# Strategies

How each strategy writes a magnitude in terms of others. A strategy does not recurse:
it is given the synthesis of one level further down, `deeper`, and draws its operands
so that each of them is a magnitude that `deeper` can write.

All magnitudes are 32-bit words. What a word stands for, and which operations keep
within the domain, depends on the synthesizer and the type: see `Domain`.
-/

namespace Camouflage

/-- Synthesis draws from a source and may fail. What was drawn before a failure stays
drawn. -/
abbrev Synth (σ : Type) := ExceptT Failure (StateM σ)

/-- A draw as a step of synthesis. It cannot fail. -/
def draw {σ α : Type} (step : StateM σ α) : Synth σ α := ExceptT.lift step

instance {σ : Type} : MonadLift (Except Failure) (Synth σ) where
  monadLift result := ExceptT.mk (pure result)

namespace Strategy

variable {σ : Type} [WordSource σ]

/-- A binary operation with its operands in either order. -/
def inAnyOrder (op : BinaryOp) (lhs rhs : Expr) : Synth σ Expr := do
  if ← draw Random.coin then return .binary op rhs lhs else return .binary op lhs rhs

/-- A drawn part of a magnitude and the rest of it. Where sums wrap the part may exceed
the whole. -/
def writeSum (domain : Domain) (deeper : UInt32 → Synth σ Expr) (value : UInt32) :
    Synth σ Expr := do
  let limit := if domain = .wrapping then Domain.freeLimit else value
  let part ← draw (Random.between 0 limit)
  let lhs ← deeper part
  let rhs ← deeper (value - part)
  inAnyOrder .add lhs rhs

/-- A drawn magnitude taken away from its sum with the value. The part taken away is
written first. -/
def writeDifference (domain : Domain) (deeper : UInt32 → Synth σ Expr) (value : UInt32) :
    Synth σ Expr := do
  let limit := if domain = .wrapping then Domain.freeLimit else domain.largest - value
  let part ← draw (Random.between 0 limit)
  if domain = .exact ∧ domain.largest.toNat < value.toNat + part.toNat then
    throw (.internal .integerSumTooLarge)
  if domain = .precise ∧ domain.largest.toNat < value.toNat + part.toNat then
    throw (.internal .floatSumTooLarge)
  let subtrahend ← deeper part
  let minuend ← deeper (value + part)
  return .binary .subtract minuend subtrahend

/-- A drawn divisor of at most half the value times the quotient, plus the remainder. A
remainder of zero is added or left out at random. -/
def writeFactor (deeper : UInt32 → Synth σ Expr) (value : UInt32) : Synth σ Expr := do
  let divisor ← draw (Random.between 1 (max 1 (value / 2)))
  let lhs ← deeper divisor
  let rhs ← deeper (value / divisor)
  let product ← inAnyOrder .multiply lhs rhs
  let remainder := value % divisor
  let more ← if remainder ≠ 0 then pure true else draw Random.coin
  if more then
    inAnyOrder .add product (← deeper remainder)
  else
    return product

/-- A product. Where products wrap, half of them are of a freely drawn factor and its
wrapped quotient, if there is one. -/
def writeProduct (domain : Domain) (deeper : UInt32 → Synth σ Expr) (value : UInt32) :
    Synth σ Expr := do
  let wraps ← if domain = .wrapping then draw Random.coin else pure false
  if wraps then
    let divisor ← draw (Random.between 1 Domain.freeLimit)
    match ← Wrapped.quotient? value divisor with
    | some quotient =>
      let lhs ← deeper divisor
      let rhs ← deeper quotient
      inAnyOrder .multiply lhs rhs
    | none => writeFactor deeper value
  else
    writeFactor deeper value

/-- An anchor, corrected by its distance to the value. -/
def writeFromAnchor (deeper : UInt32 → Synth σ Expr) (anchor : Anchor) (value : UInt32) :
    Synth σ Expr := do
  if anchor.magnitude = value then
    return anchor.expr
  else if value < anchor.magnitude then
    return .binary .subtract anchor.expr (← deeper (anchor.magnitude - value))
  else
    inAnyOrder .add anchor.expr (← deeper (value - anchor.magnitude))

variable {J : Type} [Membership Uniform J] [ShaderJob J]

/-- An anchor over a uniform that the job picks, or the literal if it has none. -/
def writeFromUniform (via : Synthesizer) (uniforms : J) (ty : Scalar)
    (deeper : UInt32 → Synth σ Expr) (literal : Expr) (value : UInt32) : Synth σ Expr := do
  match ← draw (ShaderJob.pick? uniforms) with
  | some u => writeFromAnchor deeper (← via.anchor u ty) value
  | none => return literal

/-- Writes a value by a strategy. The literal of the value is given too. -/
def write (strategy : Strategy) (via : Synthesizer) (uniforms : J) (ty : Scalar)
    (deeper : UInt32 → Synth σ Expr) (literal : Expr) (value : UInt32) : Synth σ Expr :=
  match strategy with
  | .plain => return literal
  | .sum => writeSum (via.domain ty) deeper value
  | .difference => writeDifference (via.domain ty) deeper value
  | .product => writeProduct (via.domain ty) deeper value
  | .uniform => writeFromUniform via uniforms ty deeper literal value

end Strategy

end Camouflage
