import Camouflage.Binary.Decimal
import Camouflage.Evaluation.Operation
import Camouflage.Expr.Text

/-!
# Evaluation of expressions

What an expression is worth when a shader runs. References are looked up by their
text among the bindings; operands are evaluated from left to right, and the first
fault is the one reported.
-/

namespace Camouflage

/-- The values of the references, by their texts. -/
def Bindings := String → Option Value

namespace Bindings

/-- No reference has a value. -/
def empty : Bindings := fun _ => none

/-- Gives a value to every occurrence of an expression, in place of an earlier one. -/
def bind (b : Bindings) (e : Expr) (v : Value) : Bindings :=
  fun key => if key = e.text then some v else b key

/-- The value of a reference. -/
def lookup (b : Bindings) (reference : Expr) : Except Fault Value :=
  match b reference.text with
  | some v => .ok v
  | none => .error (.unbound reference.text)

theorem lookup_bind_self (b : Bindings) (e : Expr) (v : Value) : (b.bind e v).lookup e = .ok v := by
  simp [lookup, bind]

theorem lookup_bind_of_text_ne (b : Bindings) {e r : Expr} (v : Value) (h : r.text ≠ e.text) :
    (b.bind e v).lookup r = b.lookup r := by
  simp [lookup, bind, h]

end Bindings

/-! ## Literals -/

namespace Value

/-- The type that the last letter of an integer literal states, and what is in front
of it. -/
def splitIntSuffix (cs : List Char) : Scalar × List Char :=
  match Numeral.stripLast? 'i' cs with
  | some body => (.i32, body)
  | none =>
    match Numeral.stripLast? 'u' cs with
    | some body => (.u32, body)
    | none => (.abstractInt, cs)

/-- Reads an integer literal: a signed numeral, in hexadecimal behind its mark, within
the range of the type that its suffix states. -/
def ofIntChars? (cs : List Char) : Option Value := do
  let (ty, body) := splitIntSuffix cs
  let n ←
    match Numeral.hexadecimal? body with
    | some digits => Numeral.signed? 16 digits
    | none => Numeral.signed? 10 body
  let word ← int64? n
  (abstractInt word).concretize? ty

/-- Reads a float literal: single precision if it ends in an f, double precision
otherwise. There is no half precision. -/
def ofFloatChars? (cs : List Char) : Option Value :=
  match Numeral.stripLast? 'f' cs with
  | some body => (Binary.ofChars? body).map f32
  | none => if cs.getLast? = some 'h' then none else (Binary.ofChars? cs).map abstractFloat

/-- The value of a literal that was read, or the fault that it could not be. -/
def ofLiteral (text : String) (read? : List Char → Option Value) : Except Fault Value :=
  match read? text.toList with
  | some v => .ok v
  | none => .error (.malformedLiteral text)

end Value

/-! ## Expressions -/

namespace Expr

mutual

/-- The value of an expression under the bindings. A constructor without arguments
gives the zero of its type; with more than one it is refused unevaluated. -/
def eval (b : Bindings) : Expr → Except Fault Value
  | boolLiteral _ => .error .boolean
  | intLiteral text => Value.ofLiteral text Value.ofIntChars?
  | floatLiteral text => Value.ofLiteral text Value.ofFloatChars?
  | identifier name => b.lookup (identifier name)
  | member receiver name => b.lookup (member receiver name)
  | index target position => b.lookup (index target position)
  | unary op target => do op.apply (← target.eval b)
  | binary op lhs rhs => do
    let l ← lhs.eval b
    let r ← rhs.eval b
    op.apply l r
  | call callee args => do Value.call callee (← evalList b args)
  | construct ty [] =>
    match Value.zero? ty with
    | some v => .ok v
    | none => .error .boolean
  | construct ty [arg] => do (← arg.eval b).convert ty
  | construct ty (_ :: _ :: _) => .error (.constructorArity ty)
  | paren inner => inner.eval b
termination_by structural e => e

/-- The values of a list of expressions, or the first fault among them. -/
def evalList (b : Bindings) : List Expr → Except Fault (List Value)
  | [] => .ok []
  | e :: es => do
    let v ← e.eval b
    let vs ← evalList b es
    return v :: vs
termination_by structural es => es

end

/-! ## Operations on operands that have values -/

variable {b : Bindings}

theorem eval_unary {op : UnaryOp} {e : Expr} {v : Value} (h : e.eval b = .ok v) :
    (unary op e).eval b = op.apply v := by
  rw [eval, h]
  rfl

theorem eval_binary {op : BinaryOp} {lhs rhs : Expr} {v w : Value} (hl : lhs.eval b = .ok v)
    (hr : rhs.eval b = .ok w) : (binary op lhs rhs).eval b = op.apply v w := by
  rw [eval, hl, hr]
  rfl

theorem eval_call {callee : String} {e : Expr} {v : Value} (h : e.eval b = .ok v) :
    (call callee [e]).eval b = Value.call callee [v] := by
  rw [eval, evalList, evalList, h]
  rfl

theorem eval_construct {ty : Scalar} {e : Expr} {v : Value} (h : e.eval b = .ok v) :
    (construct ty [e]).eval b = v.convert ty := by
  rw [eval, h]
  rfl

theorem eval_paren (e : Expr) : (paren e).eval b = e.eval b := by rw [eval]

/-- A reference is worth what the bindings say, and nothing else is looked at. -/
theorem eval_of_isReference : ∀ {e : Expr}, e.isReference = true → e.eval b = b.lookup e
  | identifier _, _ => by rw [eval]
  | member .., _ => by rw [eval]
  | index .., _ => by rw [eval]

end Expr

end Camouflage
