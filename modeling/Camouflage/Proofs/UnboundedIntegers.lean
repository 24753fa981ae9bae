import Camouflage.Proofs.Computed
import Camouflage.Proofs.Readings

/-!
# Integers without bound

An expression of operators, magnitudes and brackets over leaves with integers for values comes
to an integer of its own, when it is computed without any bound (`Expr.unbounded?`). Words of 32
bits give that integer up to a multiple of two to the power of 32, and abstract integers give it
exactly or not at all. What both have in common is here: which expressions these are
(`Expr.Arithmetic`), and the order in which their parts are computed (`Expr.postorder`).
-/

namespace Camouflage

/-- The operator on integers, unless it divides by zero. -/
def BinaryOp.onIntegers? (op : BinaryOp) (m n : Int) : Option Int :=
  if op.composes = false ∧ n = 0 then none else some (op.onIntegers m n)

theorem BinaryOp.onIntegers?_of_composes {op : BinaryOp} (h : op.composes = true) (m n : Int) :
    op.onIntegers? m n = some (op.onIntegers m n) :=
  if_neg fun hzero => by simp [h] at hzero

theorem BinaryOp.onIntegers?_of_ne_zero (op : BinaryOp) (m : Int) {n : Int} (h : n ≠ 0) :
    op.onIntegers? m n = some (op.onIntegers m n) :=
  if_neg fun hzero => h hzero.2

namespace Expr

/-- Whether the value of an expression is computed from those of others. -/
def isOperation : Expr → Bool
  | unary .. | binary .. | paren _ => true
  | call callee [_] => callee == "abs"
  | _ => false

/-- The integer that an expression is worth, if it is worth one. -/
def integer? (b : Bindings) (e : Expr) : Option Int := (e.eval b).toOption.bind Value.integer?

theorem integer?_of_eval {b : Bindings} {e : Expr} {v : Value} (h : e.eval b = .ok v) :
    e.integer? b = v.integer? := by
  rw [integer?, h]
  rfl

/-- The integer of an expression, computed without bound from those of its leaves. There is none
if a divisor is zero, or a leaf is no integer. -/
def unbounded? (b : Bindings) : Expr → Option Int
  | unary .negate target => (target.unbounded? b).map (- ·)
  | binary op lhs rhs => do op.onIntegers? (← lhs.unbounded? b) (← rhs.unbounded? b)
  | call callee [arg] =>
    if callee = "abs" then (arg.unbounded? b).map (|·|)
    else (call callee [arg]).integer? b
  | paren inner => inner.unbounded? b
  | e => e.integer? b
termination_by structural e => e

/-- The parts of an expression from its leaves on, the left ones first and each behind those
that it is computed from. -/
def postorder : Expr → List Expr
  | unary op target => target.postorder ++ [unary op target]
  | binary op lhs rhs => lhs.postorder ++ rhs.postorder ++ [binary op lhs rhs]
  | call callee [arg] =>
    if callee = "abs" then arg.postorder ++ [call callee [arg]] else [call callee [arg]]
  | paren inner => inner.postorder ++ [paren inner]
  | e => [e]
termination_by structural e => e

/-- An expression of operations that are allowed, over leaves with values of one type. -/
inductive Arithmetic (b : Bindings) (ty : Scalar) (allowed : Expr → Prop) : Expr → Prop
  | leaf {e v} : e.isOperation = false → e.eval b = .ok v → v.scalar = ty →
      Arithmetic b ty allowed e
  | negate {target} : allowed target.neg → Arithmetic b ty allowed target →
      Arithmetic b ty allowed target.neg
  | binary {op lhs rhs} : allowed (.binary op lhs rhs) → Arithmetic b ty allowed lhs →
      Arithmetic b ty allowed rhs → Arithmetic b ty allowed (.binary op lhs rhs)
  | absolute {arg} : allowed (.call "abs" [arg]) → Arithmetic b ty allowed arg →
      Arithmetic b ty allowed (.call "abs" [arg])
  | paren {inner} : Arithmetic b ty allowed inner → Arithmetic b ty allowed inner.paren

variable {b : Bindings} {e : Expr} {v : Value}

theorem unbounded?_of_leaf (h : e.isOperation = false) (hv : e.eval b = .ok v) :
    e.unbounded? b = v.integer? := by
  fun_cases unbounded? b e <;> simp_all [isOperation, integer?_of_eval]

theorem postorder_of_leaf (h : e.isOperation = false) : e.postorder = [e] := by
  fun_cases postorder e <;> simp_all [isOperation]

end Expr

end Camouflage
