import Camouflage.Binary.Decimal
import Camouflage.Scalar

/-!
# Failures of synthesis

Why a value cannot be disguised. Most causes lie with the request: a type that is
not handled, a text that is no number, a weight table without a strategy. The
remaining ones are defects: conditions that the synthesis itself rules out, checked
where they would first show, and told apart by `Failure.isInternal`.
-/

namespace Camouflage

/-- A condition that synthesis rules out by construction. -/
inductive Defect where
  | magnitudeTooLarge
  | integerSumTooLarge
  | floatTooLarge
  | floatSumTooLarge
  | zeroDivisor
  | indivisibleMultiple
  | quotientTooLarge
  | anchorWithoutValue
  | anchorNotInteger
  | anchorTooLarge
  deriving DecidableEq, Repr

namespace Defect

def text : Defect → String
  | magnitudeTooLarge => "magnitude outside the 32-bit domain"
  | integerSumTooLarge => "abstract sum left the 32-bit domain"
  | floatTooLarge => "float known value left the precise range"
  | floatSumTooLarge => "float sum left the precise range"
  | zeroDivisor => "zero divisor"
  | indivisibleMultiple => "wrapped multiple is not divisible by the divisor"
  | quotientTooLarge => "quotient outside the 32-bit domain"
  | anchorWithoutValue => "uniform anchor does not evaluate"
  | anchorNotInteger => "integer anchor is not an integer"
  | anchorTooLarge => "reduced float anchor left the precise range"

end Defect

/-- Why a value cannot be disguised. -/
inductive Failure where
  | unsupportedType (shape : Shape)
  | notALiteral (text : String)
  | malformedLiteral (text : String)
  | notWhole (number : Double)
  | outOfRange (number : Double) (ty : Scalar)
  | outsidePreciseRange (number : Double)
  | negativeUnsigned (n : Int)
  | noStrategy (depth : Nat)
  | unsupportedUniform (reference : String) (ty : Scalar)
  | unreachableType (ty : Scalar)
  | internal (defect : Defect)
  deriving DecidableEq

namespace Failure

/-- Whether the failure shows a defect of the synthesis rather than a request that
should not have been made. -/
def isInternal : Failure → Bool
  | internal _ | unreachableType _ => true
  | _ => false

/-- The wording of a failure. -/
def message : Failure → String
  | unsupportedType shape => "Known values of type `" ++ shape.text ++ "` are not yet supported"
  | notALiteral text => "Cannot get a numeric value from `" ++ text ++ "`"
  | malformedLiteral text => "Literal `" ++ text ++ "` is not a valid number"
  | notWhole number =>
    "Only integer-valued literals are supported in known value expressions, got " ++ number.text
  | outOfRange number ty =>
    "Value " ++ number.text ++ " cannot be represented as `" ++ ty.text ++ "`"
  | outsidePreciseRange number =>
    "Known values are currently only supported within a limited range, got " ++ number.text
  | negativeUnsigned n =>
    "Negative known value " ++ String.ofList (Numeral.ofInt n) ++ " requested for unsigned type"
  | noStrategy depth =>
    "No rewrite strategy has a positive weight at depth " ++ String.ofList (Numeral.ofNat depth)
  | unsupportedUniform reference ty =>
    "Uniform scalar `" ++ reference ++ "` of type `" ++ ty.text ++ "` cannot anchor a known value"
  | unreachableType ty => "Type `" ++ ty.text ++ "` should not reach this point"
  | internal defect => "Internal known value synthesis error: " ++ defect.text

end Failure

end Camouflage
