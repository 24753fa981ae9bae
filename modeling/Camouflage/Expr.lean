import Camouflage.Scalar

/-!
# Expression trees

The part of the shading language that synthesis reads and writes. A literal
keeps the text it was written with, so that a tree built by someone else prints
back as it came; what the text means is settled by `Literal.read` and `eval`.
-/

namespace Camouflage

/-- The operators of one operand. -/
inductive UnaryOp where
  | negate
  deriving DecidableEq, Repr

/-- The operators of two operands. -/
inductive BinaryOp where
  | add
  | subtract
  | multiply
  | divide
  | modulo
  deriving DecidableEq, Repr

/-- An expression. Literals and names carry their text. -/
inductive Expr where
  | boolLiteral (value : Bool)
  | intLiteral (text : String)
  | floatLiteral (text : String)
  | identifier (name : String)
  | member (receiver : Expr) (name : String)
  | index (target position : Expr)
  | unary (op : UnaryOp) (target : Expr)
  | binary (op : BinaryOp) (lhs rhs : Expr)
  | call (callee : String) (args : List Expr)
  | construct (ty : Scalar) (args : List Expr)
  | paren (inner : Expr)
  deriving Repr, Inhabited

namespace Expr

/-- The arithmetic negation of an expression. -/
abbrev neg (e : Expr) : Expr := .unary .negate e

/-- Whether the expression is a reference: the only kinds of node that
evaluation looks up among the bindings. -/
def isReference : Expr → Bool
  | identifier _ | member .. | index .. => true
  | _ => false

/-! ## Nesting of binary operators -/

mutual

/-- The largest number of binary operators on a path from the root. All other
nodes are free. -/
def binaryDepth : Expr → Nat
  | boolLiteral _ | intLiteral _ | floatLiteral _ | identifier _ => 0
  | member receiver _ => receiver.binaryDepth
  | index target position => max target.binaryDepth position.binaryDepth
  | unary _ target => target.binaryDepth
  | binary _ lhs rhs => 1 + max lhs.binaryDepth rhs.binaryDepth
  | call _ args => binaryDepthList args
  | construct _ args => binaryDepthList args
  | paren inner => inner.binaryDepth
termination_by structural e => e

/-- The largest depth in a list of expressions, zero for none. -/
def binaryDepthList : List Expr → Nat
  | [] => 0
  | e :: es => max e.binaryDepth (binaryDepthList es)
termination_by structural es => es

end

/-! ## Equality of trees -/

mutual

/-- Whether two trees are the same, texts of literals included. -/
def sameAs : Expr → Expr → Bool
  | boolLiteral a, boolLiteral b => a == b
  | intLiteral a, intLiteral b => a == b
  | floatLiteral a, floatLiteral b => a == b
  | identifier a, identifier b => a == b
  | member r a, member s b => r.sameAs s && a == b
  | index t i, index u j => t.sameAs u && i.sameAs j
  | unary o t, unary p u => o == p && t.sameAs u
  | binary o l r, binary p m s => o == p && l.sameAs m && r.sameAs s
  | call f as, call g bs => f == g && sameList as bs
  | construct s as, construct t bs => s == t && sameList as bs
  | paren a, paren b => a.sameAs b
  | _, _ => false
termination_by structural a => a

/-- Whether two lists hold the same trees in the same order. -/
def sameList : List Expr → List Expr → Bool
  | [], [] => true
  | a :: as, b :: bs => a.sameAs b && sameList as bs
  | _, _ => false
termination_by structural as => as

end

mutual

theorem sameAs_iff : ∀ a b : Expr, a.sameAs b = true ↔ a = b
  | boolLiteral _, b => by cases b <;> simp [sameAs]
  | intLiteral _, b => by cases b <;> simp [sameAs]
  | floatLiteral _, b => by cases b <;> simp [sameAs]
  | identifier _, b => by cases b <;> simp [sameAs]
  | member r _, b => by cases b <;> simp [sameAs, sameAs_iff r]
  | index t i, b => by cases b <;> simp [sameAs, sameAs_iff t, sameAs_iff i]
  | unary _ t, b => by cases b <;> simp [sameAs, sameAs_iff t]
  | binary _ l r, b => by cases b <;> simp [sameAs, sameAs_iff l, sameAs_iff r, and_assoc]
  | call _ as, b => by cases b <;> simp [sameAs, sameList_iff as]
  | construct _ as, b => by cases b <;> simp [sameAs, sameList_iff as]
  | paren a, b => by cases b <;> simp [sameAs, sameAs_iff a]

theorem sameList_iff : ∀ as bs : List Expr, sameList as bs = true ↔ as = bs
  | [], bs => by cases bs <;> simp [sameList]
  | a :: as, bs => by cases bs <;> simp [sameList, sameAs_iff a, sameList_iff as]

end

instance : DecidableEq Expr := fun a b =>
  decidable_of_iff (a.sameAs b = true) (sameAs_iff a b)

end Expr

end Camouflage
