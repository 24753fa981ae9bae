import Camouflage.Expr
import Camouflage.Value

/-!
# Operators and functions on values

Concrete integers wrap modulo two to the power of 32, as they do when a shader
runs. Abstract integers are exact, and a result out of range is a fault. An
abstract operand that meets a concrete one is concretized first.
-/

namespace Camouflage

namespace Value

/-- An abstract integer, or the overflow of the operation that led to it. -/
def exact (operation : ExactOperation) (n : Int) : Except Fault Value :=
  match int64? n with
  | some word => .ok (abstractInt word)
  | none => .error (.overflow operation)

theorem exact_eq_ok_iff {operation : ExactOperation} {n : Int} {v : Value} :
    exact operation n = .ok v ↔ ∃ word : Int64, word.toInt = n ∧ v = abstractInt word := by
  unfold exact
  constructor
  · intro h
    split at h
    · rename_i word hword
      exact ⟨word, int64?_eq_some_iff.1 hword, (Except.ok.inj h).symm⟩
    · cases h
  · rintro ⟨word, hword, rfl⟩
    rw [int64?_eq_some_iff.2 hword]

end Value

/-- The least signed word is the only one whose negation wraps. -/
theorem toInt_neg_of_ne {n : Int32} (h : n ≠ Int32.minValue) : (-n).toInt = -n.toInt := by
  have hlow := n.le_toInt
  have hhigh := n.toInt_lt
  have hmin := Int32.toInt_minValue
  have hne : n.toInt ≠ Int32.minValue.toInt := fun heq => h (Int32.toInt_inj.1 heq)
  rw [Int32.toInt_neg, Int.bmod_eq_of_le (by omega) (by omega)]

namespace UnaryOp

/-- The value of an operator at a value. -/
def apply : UnaryOp → Value → Except Fault Value
  | negate, .i32 n => .ok (.i32 (-n))
  | negate, .abstractInt n => Value.exact .negation (-n.toInt)
  | negate, .f32 x => .ok (.f32 (-x))
  | negate, .abstractFloat x => .ok (.abstractFloat (-x))
  | negate, .u32 _ => .error .invalidOperand

end UnaryOp

namespace BinaryOp

/-- Two operands brought to one type: equal types stay, an abstract operand becomes
of the concrete type of the other, and two abstract ones become floats. -/
def unify (left right : Value) : Except Fault (Value × Value) :=
  let (l, r) := (left.scalar, right.scalar)
  let unified :=
    if l = r then some (left, right)
    else
      match l.isAbstract, r.isAbstract with
      | true, false => (left.concretize? r).map (·, right)
      | false, true => (right.concretize? l).map (left, ·)
      | true, true => do
        return (← left.concretize? .abstractFloat, ← right.concretize? .abstractFloat)
      | false, false => none
  match unified with
  | some pair => .ok pair
  | none => .error (.invalidOperands l r)

/-- The operator on signed words. The one quotient out of range wraps too. -/
def applyInt32 (a b : Int32) : BinaryOp → Except Fault Int32
  | add => .ok (a + b)
  | subtract => .ok (a - b)
  | multiply => .ok (a * b)
  | divide => if b = 0 then .error .divisionByZero else .ok (a / b)
  | modulo => if b = 0 then .error .remainderByZero else .ok (a % b)

/-- The operator on unsigned words. -/
def applyUInt32 (a b : UInt32) : BinaryOp → Except Fault UInt32
  | add => .ok (a + b)
  | subtract => .ok (a - b)
  | multiply => .ok (a * b)
  | divide => if b = 0 then .error .divisionByZero else .ok (a / b)
  | modulo => if b = 0 then .error .remainderByZero else .ok (a % b)

/-- The operator on abstract integers: division truncates, and a remainder is refused
together with its quotient. -/
def applyExact (a b : Int) : BinaryOp → Except Fault Value
  | add => Value.exact .addition (a + b)
  | subtract => Value.exact .subtraction (a - b)
  | multiply => Value.exact .multiplication (a * b)
  | divide => if b = 0 then .error .divisionByZero else Value.exact .division (a.tdiv b)
  | modulo =>
    if b = 0 then .error .remainderByZero
    else if (int64? (a.tdiv b)).isNone then .error (.overflow .remainder)
    else Value.exact .remainder (a.tmod b)

/-- The operator on floating point numbers. -/
def applyFloat {f : Format} (a b : Binary f) : BinaryOp → Binary f
  | add => a + b
  | subtract => a - b
  | multiply => a * b
  | divide => a / b
  | modulo => a % b

/-- The value of an operator at two values. -/
def apply (op : BinaryOp) (left right : Value) : Except Fault Value :=
  match unify left right with
  | .error fault => .error fault
  | .ok (.i32 a, .i32 b) => (op.applyInt32 a b).map .i32
  | .ok (.u32 a, .u32 b) => (op.applyUInt32 a b).map .u32
  | .ok (.abstractInt a, .abstractInt b) => op.applyExact a.toInt b.toInt
  | .ok (.f32 a, .f32 b) => .ok (.f32 (op.applyFloat a b))
  | .ok (.abstractFloat a, .abstractFloat b) => .ok (.abstractFloat (op.applyFloat a b))
  | .ok (a, b) => .error (.invalidOperands a.scalar b.scalar)

theorem apply_i32 {op : BinaryOp} {l r n : Int32} (h : op.applyInt32 l r = .ok n) :
    op.apply (.i32 l) (.i32 r) = .ok (.i32 n) := by
  show (op.applyInt32 l r).map Value.i32 = _
  rw [h]
  rfl

theorem apply_u32 {op : BinaryOp} {l r n : UInt32} (h : op.applyUInt32 l r = .ok n) :
    op.apply (.u32 l) (.u32 r) = .ok (.u32 n) := by
  show (op.applyUInt32 l r).map Value.u32 = _
  rw [h]
  rfl

end BinaryOp

namespace Value

/-- The magnitude of a value. The least signed word is its own. -/
def abs : Value → Except Fault Value
  | i32 n => .ok (i32 (if n < 0 then -n else n))
  | u32 n => .ok (u32 n)
  | abstractInt n => exact .absolute n.toInt.natAbs
  | f32 x => .ok (f32 x.abs)
  | abstractFloat x => .ok (abstractFloat x.abs)

/-- A floating point value without its fraction. -/
def trunc? : Value → Option Value
  | f32 x => some (f32 x.trunc)
  | abstractFloat x => some (abstractFloat x.trunc)
  | i32 _ | u32 _ | abstractInt _ => none

/-- The value of a function at a list of arguments. Every function takes one, and the
number of arguments is looked at before the name. -/
def call (callee : String) : List Value → Except Fault Value
  | [arg] =>
    if callee = "trunc" then
      match arg.trunc? with
      | some v => .ok v
      | none => .error (.invalidArgument callee)
    else if callee = "abs" then arg.abs
    else .error (.unknownFunction callee)
  | _ => .error (.invalidArgument callee)

end Value

end Camouflage
