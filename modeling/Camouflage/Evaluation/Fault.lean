import Camouflage.Scalar

/-!
# Faults of evaluation

Why an expression has no value. Each cause is a constructor; its wording is in
`Fault.message` alone.
-/

namespace Camouflage

/-- The operations on abstract integers whose exact result can leave the range. -/
inductive ExactOperation where
  | negation
  | addition
  | subtraction
  | multiplication
  | division
  | remainder
  | absolute
  deriving DecidableEq, Repr

namespace ExactOperation

def text : ExactOperation → String
  | negation => "negation"
  | addition => "addition"
  | subtraction => "subtraction"
  | multiplication => "multiplication"
  | division => "division"
  | remainder => "remainder"
  | absolute => "abs"

end ExactOperation

/-- Why an expression has no value. -/
inductive Fault where
  | unbound (reference : String)
  | malformedLiteral (literal : String)
  | boolean
  | overflow (operation : ExactOperation)
  | divisionByZero
  | remainderByZero
  | invalidOperand
  | invalidOperands (left right : Scalar)
  | invalidConversion (source target : Scalar)
  | constructorArity (ty : Scalar)
  | unknownFunction (callee : String)
  | invalidArgument (callee : String)
  deriving DecidableEq, Repr

namespace Fault

/-- The wording of a fault. -/
def message : Fault → String
  | unbound reference => "Expression `" ++ reference ++ "` is not bound to a value"
  | malformedLiteral literal => "Literal `" ++ literal ++ "` is malformed"
  | boolean => "Boolean expressions are not evaluated"
  | overflow operation => "Abstract integer " ++ operation.text ++ " overflowed"
  | divisionByZero => "Division by zero"
  | remainderByZero => "Remainder by zero"
  | invalidOperand => "Cannot apply the unary op to the argument"
  | invalidOperands left right =>
    "Cannot apply the binary op to arguments of type `" ++ left.text ++ "` and `" ++ right.text ++ "`"
  | invalidConversion source target =>
    "Cannot convert `" ++ source.text ++ "` to `" ++ target.text ++ "`"
  | constructorArity ty => "Constructor `" ++ ty.text ++ "` takes a single argument"
  | unknownFunction callee => "Unknown function `" ++ callee ++ "`"
  | invalidArgument callee => "Function `" ++ callee ++ "` cannot be applied to that argument"

end Fault

end Camouflage
