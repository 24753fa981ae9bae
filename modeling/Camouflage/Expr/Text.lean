import Camouflage.Expr

/-!
# The text of an expression

Every binary operation stands in brackets of its own, so the text needs no
operator precedences, and a negation directly under a negation is bracketed so
that the two signs do not run together into a decrement.

The text is built as a list of characters, `Expr.chars`; `Expr.text` is the same
as a string.
-/

namespace Camouflage

namespace BinaryOp

/-- The sign of the operator. -/
def sign : BinaryOp → Char
  | add => '+'
  | subtract => '-'
  | multiply => '*'
  | divide => '/'
  | modulo => '%'

end BinaryOp

namespace Expr

/-- Whether the node is itself an operator of one operand, which a further one
in front of it must keep at a distance. -/
def isUnary : Expr → Bool
  | unary .. => true
  | _ => false

mutual

/-- The characters of an expression. -/
def chars : Expr → List Char
  | boolLiteral true => "true".toList
  | boolLiteral false => "false".toList
  | intLiteral text => text.toList
  | floatLiteral text => text.toList
  | identifier name => name.toList
  | member receiver name => receiver.chars ++ '.' :: name.toList
  | index target position => target.chars ++ '[' :: position.chars ++ [']']
  | unary .negate target =>
    if target.isUnary then '-' :: '(' :: target.chars ++ [')'] else '-' :: target.chars
  | binary op lhs rhs => '(' :: lhs.chars ++ [' ', op.sign, ' '] ++ rhs.chars ++ [')']
  | call callee args => callee.toList ++ '(' :: charsList args ++ [')']
  | construct ty args => ty.text.toList ++ '(' :: charsList args ++ [')']
  | paren inner => '(' :: inner.chars ++ [')']
termination_by structural e => e

/-- The characters of a list of arguments, separated by a comma and a blank. -/
def charsList : List Expr → List Char
  | [] => []
  | e :: es => e.chars ++ charsTail es
termination_by structural es => es

/-- The characters of the arguments after the first. -/
def charsTail : List Expr → List Char
  | [] => []
  | e :: es => ',' :: ' ' :: e.chars ++ charsTail es
termination_by structural es => es

end

/-- The text of an expression. -/
def text (e : Expr) : String := String.ofList e.chars

@[simp] theorem toList_text (e : Expr) : e.text.toList = e.chars := by simp [text]

/-- Two expressions have the same text exactly when they have the same
characters. -/
theorem text_inj {a b : Expr} : a.text = b.text ↔ a.chars = b.chars := by
  simp [← String.toList_inj]

end Expr

end Camouflage
