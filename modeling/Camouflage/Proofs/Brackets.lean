import Camouflage.Evaluation

/-!
# Brackets in a text and in its tree

A text can show brackets that no node stands for: those that keep two signs apart.
`Expr.spaced` puts a node for them into the tree, which changes neither its text nor what it is
worth, and `Expr.bare` takes all such nodes out.
-/

namespace Camouflage

namespace Expr

/-! ## Brackets that are put in and taken out -/

mutual

/-- The tree with a node for the brackets between two signs. -/
def spaced : Expr → Expr
  | boolLiteral value => boolLiteral value
  | intLiteral text => intLiteral text
  | floatLiteral text => floatLiteral text
  | identifier name => identifier name
  | member receiver name => member receiver.spaced name
  | index target position => index target.spaced position.spaced
  | unary op target =>
    if target.isUnary then unary op (paren target.spaced) else unary op target.spaced
  | binary op lhs rhs => binary op lhs.spaced rhs.spaced
  | call callee args => call callee (spacedList args)
  | construct ty args => construct ty (spacedList args)
  | paren inner => paren inner.spaced
termination_by structural e => e

def spacedList : List Expr → List Expr
  | [] => []
  | e :: es => e.spaced :: spacedList es
termination_by structural es => es

end

mutual

/-- The tree without any node for brackets. -/
def bare : Expr → Expr
  | boolLiteral value => boolLiteral value
  | intLiteral text => intLiteral text
  | floatLiteral text => floatLiteral text
  | identifier name => identifier name
  | member receiver name => member receiver.bare name
  | index target position => index target.bare position.bare
  | unary op target => unary op target.bare
  | binary op lhs rhs => binary op lhs.bare rhs.bare
  | call callee args => call callee (bareList args)
  | construct ty args => construct ty (bareList args)
  | paren inner => inner.bare
termination_by structural e => e

def bareList : List Expr → List Expr
  | [] => []
  | e :: es => e.bare :: bareList es
termination_by structural es => es

end

theorem isUnary_spaced (e : Expr) : e.spaced.isUnary = e.isUnary := by
  cases e with
  | unary op target =>
    rw [spaced]
    split
    · rfl
    · rfl
  | _ => rfl

/-! ## What brackets between signs leave as it is -/

mutual

theorem bare_spaced : ∀ e : Expr, e.spaced.bare = e.bare
  | boolLiteral _ | intLiteral _ | floatLiteral _ | identifier _ => rfl
  | member receiver _ => by rw [spaced, bare, bare, bare_spaced receiver]
  | index target position => by rw [spaced, bare, bare, bare_spaced target, bare_spaced position]
  | unary _ target => by
    rw [spaced]
    split
    · rw [bare, bare, bare, bare_spaced target]
    · rw [bare, bare, bare_spaced target]
  | binary _ lhs rhs => by rw [spaced, bare, bare, bare_spaced lhs, bare_spaced rhs]
  | call _ args => by rw [spaced, bare, bare, bareList_spacedList args]
  | construct _ args => by rw [spaced, bare, bare, bareList_spacedList args]
  | paren inner => by rw [spaced, bare, bare, bare_spaced inner]

theorem bareList_spacedList : ∀ es : List Expr, bareList (spacedList es) = bareList es
  | [] => rfl
  | e :: es => by rw [spacedList, bareList, bareList, bare_spaced e, bareList_spacedList es]

end

mutual

theorem chars_spaced : ∀ e : Expr, e.spaced.chars = e.chars
  | boolLiteral _ | intLiteral _ | floatLiteral _ | identifier _ => rfl
  | member receiver _ => by rw [spaced, chars, chars, chars_spaced receiver]
  | index target position => by
    rw [spaced, chars, chars, chars_spaced target, chars_spaced position]
  | unary .negate target => by
    rw [spaced]
    split
    · rename_i hunary
      rw [chars, chars, chars, chars_spaced target, if_pos hunary]
      rfl
    · rename_i hother
      rw [chars, chars, chars_spaced target, isUnary_spaced, if_neg hother]
  | binary _ lhs rhs => by rw [spaced, chars, chars, chars_spaced lhs, chars_spaced rhs]
  | call _ args => by rw [spaced, chars, chars, charsList_spacedList args]
  | construct _ args => by rw [spaced, chars, chars, charsList_spacedList args]
  | paren inner => by rw [spaced, chars, chars, chars_spaced inner]

theorem charsList_spacedList : ∀ es : List Expr, charsList (spacedList es) = charsList es
  | [] => rfl
  | e :: es => by
    rw [spacedList, charsList, charsList, chars_spaced e, charsTail_spacedList es]

theorem charsTail_spacedList : ∀ es : List Expr, charsTail (spacedList es) = charsTail es
  | [] => rfl
  | e :: es => by
    rw [spacedList, charsTail, charsTail, chars_spaced e, charsTail_spacedList es]

end

theorem text_spaced (e : Expr) : e.spaced.text = e.text := text_inj.2 (chars_spaced e)

/-- A reference is looked up by its text alone. -/
theorem lookup_spaced (b : Bindings) (e : Expr) : b.lookup e.spaced = b.lookup e := by
  rw [Bindings.lookup, text_spaced, ← Bindings.lookup]

mutual

theorem eval_spaced (b : Bindings) : ∀ e : Expr, e.spaced.eval b = e.eval b
  | boolLiteral _ | intLiteral _ | floatLiteral _ | identifier _ => rfl
  | member receiver name => lookup_spaced b (member receiver name)
  | index target position => lookup_spaced b (index target position)
  | unary _ target => by
    rw [spaced]
    split
    · rw [eval, eval_paren, eval, eval_spaced b target]
    · rw [eval, eval, eval_spaced b target]
  | binary _ lhs rhs => by rw [spaced, eval, eval, eval_spaced b lhs, eval_spaced b rhs]
  | call _ args => by rw [spaced, eval, eval, evalList_spacedList b args]
  | construct _ [] => rfl
  | construct _ [arg] => by
    rw [spaced, spacedList, spacedList, eval, eval, eval_spaced b arg]
  | construct _ (_ :: _ :: _) => by rw [spaced, spacedList, spacedList, eval, eval]
  | paren inner => by rw [spaced, eval, eval, eval_spaced b inner]

theorem evalList_spacedList (b : Bindings) : ∀ es : List Expr,
    evalList b (spacedList es) = evalList b es
  | [] => rfl
  | e :: es => by rw [spacedList, evalList, evalList, eval_spaced b e, evalList_spacedList b es]

end

end Expr

end Camouflage
