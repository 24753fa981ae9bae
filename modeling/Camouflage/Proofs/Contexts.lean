import Camouflage.Proofs.Integers
import Camouflage.Proofs.Requests

/-!
# Splicing a disguise

Both forms of a disguise are worth one value, and evaluation looks at an operand only for
its value. So one form can take the place of the other anywhere in an expression, except
within a reference, which is looked up by its text.
-/

namespace Camouflage

/-! ## Contexts -/

/-- One node around a hole. The nodes of references are none of them. -/
inductive Frame where
  | unary (op : UnaryOp)
  | left (op : BinaryOp) (rhs : Expr)
  | right (op : BinaryOp) (lhs : Expr)
  | argument (callee : String) (before after : List Expr)
  | component (ty : Scalar) (before after : List Expr)
  | paren

/-- The node with an expression in the hole. -/
def Frame.fill : Frame → Expr → Expr
  | unary op, e => .unary op e
  | left op rhs, e => .binary op e rhs
  | right op lhs, e => .binary op lhs e
  | argument callee before after, e => .call callee (before ++ e :: after)
  | component ty before after, e => .construct ty (before ++ e :: after)
  | paren, e => .paren e

/-- An expression with a hole: the nodes around it, the root first. -/
abbrev Context := List Frame

/-- The expression with another one in the hole. -/
def Context.fill (context : Context) (e : Expr) : Expr := context.foldr Frame.fill e

/-! ## Equal values can be exchanged -/

namespace Expr

variable {b : Bindings} {e e' : Expr}

theorem evalList_congr (h : e.eval b = e'.eval b) (before after : List Expr) :
    evalList b (before ++ e :: after) = evalList b (before ++ e' :: after) := by
  induction before with
  | nil => rw [List.nil_append, List.nil_append, evalList, evalList, h]
  | cons x before ih => rw [List.cons_append, List.cons_append, evalList, evalList, ih]

/-- A constructor of more than one argument is not evaluated. -/
theorem eval_construct_of_two_le {ty : Scalar} {args : List Expr} (h : 2 ≤ args.length) :
    (construct ty args).eval b = .error (.constructorArity ty) := by
  match args, h with
  | _ :: _ :: _, _ => rw [eval]

theorem eval_construct_congr (h : e.eval b = e'.eval b) (ty : Scalar) (before after : List Expr) :
    (construct ty (before ++ e :: after)).eval b =
      (construct ty (before ++ e' :: after)).eval b := by
  by_cases halone : before = [] ∧ after = []
  · obtain ⟨rfl, rfl⟩ := halone
    rw [List.nil_append, List.nil_append, eval, eval, h]
  · have hlength : ∀ x : Expr, 2 ≤ (before ++ x :: after).length := by
      have hmore : before.length + after.length ≠ 0 := by
        simpa only [ne_eq, Nat.add_eq_zero_iff, List.length_eq_zero_iff] using halone
      intro x
      rw [List.length_append, List.length_cons]
      omega
    rw [eval_construct_of_two_le (hlength e), eval_construct_of_two_le (hlength e')]

/-- Around a hole a node sees the value of what fills it, or the fault, and nothing else. -/
theorem eval_frame_congr (h : e.eval b = e'.eval b) (frame : Frame) :
    (frame.fill e).eval b = (frame.fill e').eval b := by
  cases frame with
  | unary op => rw [Frame.fill, Frame.fill, eval, eval, h]
  | left op rhs => rw [Frame.fill, Frame.fill, eval, eval, h]
  | right op lhs => rw [Frame.fill, Frame.fill, eval, eval, h]
  | argument callee before after =>
    rw [Frame.fill, Frame.fill, eval, eval, evalList_congr h]
  | component ty before after => exact eval_construct_congr h ty before after
  | paren => rw [Frame.fill, Frame.fill, eval, eval, h]

theorem eval_fill_congr (h : e.eval b = e'.eval b) (context : Context) :
    (context.fill e).eval b = (context.fill e').eval b := by
  induction context with
  | nil => exact h
  | cons frame context ih => exact eval_frame_congr ih frame

end Expr

/-! ## The two forms of a disguise -/

namespace Palette

open Synth

variable {σ : Type} [WordSource σ] {J : Type} [Membership Uniform J] [ShaderJob J]
variable {palette : Palette J} {depth : Nat} {source : σ} {k : Disguise} {b : Bindings}

/-- Both forms of a disguise are worth one value, whatever was asked for. -/
theorem eval_of_disguise {request : Request} (hb : ∀ ty, b.Serves ty palette.uniforms)
    (h : outcome (palette.disguise depth request) source = .ok k) :
    ∃ v, k.literal.eval b = .ok v ∧ k.rewritten.eval b = .ok v := by
  have hinteger : ∀ {value ty}, outcome (palette.disguiseInteger depth value ty) source = .ok k →
      ∃ v, k.literal.eval b = .ok v ∧ k.rewritten.eval b = .ok v := by
    intro value ty h
    obtain ⟨v, -, -, hforms⟩ := eval_of_disguiseInteger (hb ty) h
    exact ⟨v, hforms⟩
  cases request with
  | integer value ty => exact hinteger h
  | literal e shape =>
    obtain ⟨ty, n, -, -, ⟨-, h⟩ | ⟨hfloat, hlow, hhigh, h⟩⟩ := of_disguiseLiteral_ok h
    · exact hinteger h
    · obtain ⟨v, -, hforms⟩ :=
        eval_of_disguiseMagnitude hfloat (ofNat_le_preciseLimit hlow hhigh).1 (hb ty) h
      exact ⟨v, hforms⟩

/-- Which of the two forms of a disguise stands in an expression cannot be told from what the
expression is worth, be it a value or a fault, wherever the uniforms are bound to their
values. -/
theorem splice_unobservable {request : Request} (huniforms : ∀ u ∈ palette.uniforms, u.WellFormed)
    (hb : b.Holds palette.uniforms)
    (h : outcome (palette.disguise depth request) source = .ok k) (context : Context) :
    (context.fill k.literal).eval b = (context.fill k.rewritten).eval b := by
  obtain ⟨v, hliteral, hrewritten⟩ := eval_of_disguise (hb.serves huniforms) h
  exact Expr.eval_fill_congr (hliteral.trans hrewritten.symm) context

/-- One divided by a zero shows its sign. -/
theorem splice_unobservable_reciprocal :
    ∃ k, outcome (disguise ⟨3, .default, [Uniform.sample]⟩ 0
        (.literal (.floatLiteral "0.0") (.scalar .f32))) (ChaCha.ofSeed 0) = .ok k ∧
      (Expr.binary .divide (.intLiteral "1") (.paren k.literal)).eval (.ofUniforms [.sample]) =
        (Expr.binary .divide (.intLiteral "1") (.paren k.rewritten)).eval
          (.ofUniforms [.sample]) := by
  have hrun : (outcome (disguise ⟨3, .default, [Uniform.sample]⟩ 0
      (.literal (.floatLiteral "0.0") (.scalar .f32))) (ChaCha.ofSeed 0)).isOk = true := by
    decide +kernel
  obtain ⟨k, hk⟩ := exists_ok hrun
  exact ⟨k, hk, splice_unobservable Uniform.allWellFormed_sample.each
    (Bindings.holds_ofUniforms Uniform.allWellFormed_sample) hk
    [.right .divide (.intLiteral "1"), .paren]⟩

end Palette

end Camouflage
