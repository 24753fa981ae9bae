import Camouflage.Proofs.UnboundedIntegers
import Mathlib.Data.Int.ModEq

/-!
# Arithmetic of words

Concrete integers are computed with modulo two to the power of 32. Signed and unsigned words
stand for different integers there, but sums, differences, products and negations of congruent
integers are congruent. So an expression of those operations is worth a word congruent to its
integer (`Expr.eval_congruent`), however often it wraps on the way, and reading all leaves of a
signed one as unsigned keeps the bits of the value (`Expr.Reinterprets.eval`). Main statement:
`Expr.eval_modulo_word`.
-/

namespace Camouflage

/-! ## Single operations -/

namespace BinaryOp

variable {op : BinaryOp}

theorem onIntegers_modEq (hop : op.composes = true) {m m' n n' : Int} (hm : m ≡ m' [ZMOD 2 ^ 32])
    (hn : n ≡ n' [ZMOD 2 ^ 32]) : op.onIntegers m n ≡ op.onIntegers m' n' [ZMOD 2 ^ 32] := by
  cases op with
  | add => exact hm.add hn
  | subtract => exact hm.sub hn
  | multiply => exact hm.mul hn
  | divide => cases hop
  | modulo => cases hop

theorem applyInt32_modEq (hop : op.composes = true) (l r : Int32) :
    ∃ n, op.applyInt32 l r = .ok n ∧ n.toInt ≡ op.onIntegers l.toInt r.toInt [ZMOD 2 ^ 32] := by
  cases op with
  | add =>
    refine ⟨_, rfl, ?_⟩
    rw [Int32.toInt_add]
    exact Int.bmod_emod
  | subtract =>
    refine ⟨_, rfl, ?_⟩
    rw [Int32.toInt_sub]
    exact Int.bmod_emod
  | multiply =>
    refine ⟨_, rfl, ?_⟩
    rw [Int32.toInt_mul]
    exact Int.bmod_emod
  | divide => cases hop
  | modulo => cases hop

theorem applyUInt32_modEq (hop : op.composes = true) (l r : UInt32) :
    ∃ n, op.applyUInt32 l r = .ok n ∧
      (n.toNat : Int) ≡ op.onIntegers l.toNat r.toNat [ZMOD 2 ^ 32] := by
  cases op with
  | add =>
    refine ⟨_, rfl, ?_⟩
    rw [UInt32.toNat_add]
    push_cast
    exact Int.mod_modEq _ _
  | subtract =>
    -- The modulus is added before the subtraction, which is one of natural numbers.
    have hr := r.toNat_lt
    refine ⟨_, rfl, ?_⟩
    rw [UInt32.toNat_sub]
    show _ % _ = ((l.toNat : Int) - r.toNat) % _
    omega
  | multiply =>
    refine ⟨_, rfl, ?_⟩
    rw [UInt32.toNat_mul]
    push_cast
    exact Int.mod_modEq _ _
  | divide => cases hop
  | modulo => cases hop

end BinaryOp

namespace Value

/-- A value of a type which is an integer up to a multiple of two to the power of 32. -/
structure Congruent (ty : Scalar) (n : Int) (v : Value) : Prop where
  scalar : v.scalar = ty
  integer : ∃ m, v.integer? = some m ∧ m ≡ n [ZMOD 2 ^ 32]

namespace Congruent

variable {v w : Value} {m n : Int}

theorem exists_i32 (h : v.Congruent .i32 n) : ∃ word, v = .i32 word ∧ word.toInt ≡ n [ZMOD 2 ^ 32] := by
  obtain ⟨hscalar, k, hk, hmod⟩ := h
  cases v with
  | i32 word =>
    obtain rfl := Option.some.inj hk
    exact ⟨word, rfl, hmod⟩
  | _ => cases hscalar

theorem exists_u32 (h : v.Congruent .u32 n) :
    ∃ word, v = .u32 word ∧ (word.toNat : Int) ≡ n [ZMOD 2 ^ 32] := by
  obtain ⟨hscalar, k, hk, hmod⟩ := h
  cases v with
  | u32 word =>
    obtain rfl := Option.some.inj hk
    exact ⟨word, rfl, hmod⟩
  | _ => cases hscalar

theorem negate (h : v.Congruent .i32 n) :
    ∃ w, UnaryOp.negate.apply v = .ok w ∧ w.Congruent .i32 (-n) := by
  obtain ⟨word, rfl, hword⟩ := h.exists_i32
  have hneg : (-word).toInt ≡ -word.toInt [ZMOD 2 ^ 32] := by
    rw [Int32.toInt_neg]
    exact Int.bmod_emod
  exact ⟨_, rfl, rfl, _, rfl, hneg.trans hword.neg⟩

theorem apply {ty : Scalar} {op : BinaryOp} (hty : ty = .i32 ∨ ty = .u32)
    (hop : op.composes = true) (hv : v.Congruent ty m) (hw : w.Congruent ty n) :
    ∃ x, op.apply v w = .ok x ∧ x.Congruent ty (op.onIntegers m n) := by
  rcases hty with rfl | rfl
  · obtain ⟨l, rfl, hl⟩ := hv.exists_i32
    obtain ⟨r, rfl, hr⟩ := hw.exists_i32
    obtain ⟨word, hword, hmod⟩ := BinaryOp.applyInt32_modEq hop l r
    exact ⟨.i32 word, BinaryOp.apply_i32 hword, rfl, _, rfl,
      hmod.trans (BinaryOp.onIntegers_modEq hop hl hr)⟩
  · obtain ⟨l, rfl, hl⟩ := hv.exists_u32
    obtain ⟨r, rfl, hr⟩ := hw.exists_u32
    obtain ⟨word, hword, hmod⟩ := BinaryOp.applyUInt32_modEq hop l r
    exact ⟨.u32 word, BinaryOp.apply_u32 hword, rfl, _, rfl,
      hmod.trans (BinaryOp.onIntegers_modEq hop hl hr)⟩

end Congruent

end Value

/-! ## Expressions -/

namespace Expr

/-- The operations on words of a type: sums, differences and products, and the negation of
signed ones. -/
def Wraps (ty : Scalar) : Expr → Prop
  | unary .negate _ => ty = .i32
  | binary op .. => op.composes = true
  | call .. => False
  | _ => True

variable {b b' : Bindings} {e e' : Expr}

/-- An expression of operations on words is worth its integer, modulo two to the power of 32. -/
theorem eval_congruent {ty : Scalar} (hty : ty = .i32 ∨ ty = .u32)
    (h : e.Arithmetic b ty (Wraps ty)) :
    ∃ v n, e.eval b = .ok v ∧ e.unbounded? b = some n ∧ v.Congruent ty n := by
  induction h with
  | @leaf e v hleaf hv hscalar =>
    obtain ⟨m, hm⟩ : ∃ m, v.integer? = some m := by
      cases v with
      | f32 x => rcases hty with rfl | rfl <;> cases hscalar
      | abstractFloat x => rcases hty with rfl | rfl <;> cases hscalar
      | _ => exact ⟨_, rfl⟩
    exact ⟨v, m, hv, (unbounded?_of_leaf hleaf hv).trans hm, hscalar, m, hm, rfl⟩
  | negate hsigned _ ih =>
    obtain rfl : ty = .i32 := hsigned
    obtain ⟨v, n, hv, hn, hmod⟩ := ih
    obtain ⟨w, hw, hneg⟩ := hmod.negate
    refine ⟨w, -n, (eval_unary hv).trans hw, ?_, hneg⟩
    rw [unbounded?, hn]
    rfl
  | @binary op lhs rhs hop _ _ ihl ihr =>
    obtain ⟨v, m, hv, hm, hmodl⟩ := ihl
    obtain ⟨w, n, hw, hn, hmodr⟩ := ihr
    obtain ⟨x, hx, hmod⟩ := hmodl.apply hty hop hmodr
    refine ⟨x, op.onIntegers m n, (eval_binary hv hw).trans hx, ?_, hmod⟩
    rw [unbounded?, hm, hn]
    exact BinaryOp.onIntegers?_of_composes hop m n
  | absolute hcall => exact hcall.elim
  | @paren inner _ ih =>
    rw [eval_paren, unbounded?]
    exact ih

/-- A signed expression and the unsigned one whose leaves have the same bits. Unsigned words are
not negated, so there a negation is a difference from zero. -/
inductive Reinterprets (b b' : Bindings) : Expr → Expr → Prop
  | leaf {leaf leaf' word} : leaf.isOperation = false → leaf'.isOperation = false →
      leaf.eval b = .ok (.i32 word) → leaf'.eval b' = .ok (.u32 word.toUInt32) →
      Reinterprets b b' leaf leaf'
  | negate {target target' zero} : zero.eval b' = .ok (.u32 0) → Reinterprets b b' target target' →
      Reinterprets b b' target.neg (.binary .subtract zero target')
  | binary {op lhs rhs lhs' rhs'} : op.composes = true → Reinterprets b b' lhs lhs' →
      Reinterprets b b' rhs rhs' → Reinterprets b b' (.binary op lhs rhs) (.binary op lhs' rhs')
  | paren {inner inner'} : Reinterprets b b' inner inner' →
      Reinterprets b b' inner.paren inner'.paren

/-- Both are worth the same bits. -/
theorem Reinterprets.eval (h : Reinterprets b b' e e') :
    ∃ word : UInt32, e.eval b = .ok (.i32 word.toInt32) ∧ e'.eval b' = .ok (.u32 word) := by
  induction h with
  | @leaf leaf leaf' word _ _ hv hw => exact ⟨word.toUInt32, by simpa using hv, hw⟩
  | negate hzero _ ih =>
    obtain ⟨word, hv, hw⟩ := ih
    refine ⟨0 - word, (eval_unary hv).trans ?_, eval_binary hzero hw⟩
    rw [UInt32.zero_sub, UInt32.toInt32_neg]
    rfl
  | @binary op lhs rhs lhs' rhs' hop _ _ ihl ihr =>
    obtain ⟨l, hl, hl'⟩ := ihl
    obtain ⟨r, hr, hr'⟩ := ihr
    obtain ⟨word, hword, -⟩ := BinaryOp.applyUInt32_modEq hop l r
    have hsigned := BinaryOp.apply_i32 (BinaryOp.applyInt32_toInt32 hop hword)
    have hunsigned := BinaryOp.apply_u32 hword
    exact ⟨word, (eval_binary hl hr).trans hsigned, (eval_binary hl' hr').trans hunsigned⟩
  | paren _ ih =>
    simp only [eval_paren]
    exact ih

/-- An expression of sums, differences, products, brackets and negations of signed words, over
leaves that are all signed words or all unsigned ones, is worth a word of the same type that is
congruent to its integer without bound. Reading the leaves of a signed one as unsigned keeps the
bits of its value. -/
theorem eval_modulo_word :
    (∀ (b : Bindings) (ty : Scalar) (e : Expr), ty = .i32 ∨ ty = .u32 →
      e.Arithmetic b ty (Wraps ty) →
      ∃ v m n, e.eval b = .ok v ∧ v.scalar = ty ∧ v.integer? = some m ∧ e.unbounded? b = some n ∧
        m ≡ n [ZMOD 2 ^ 32]) ∧
    ∀ (b b' : Bindings) (e e' : Expr), Reinterprets b b' e e' →
      ∃ word : UInt32, e.eval b = .ok (.i32 word.toInt32) ∧ e'.eval b' = .ok (.u32 word) := by
  refine ⟨fun b ty e hty h => ?_, fun b b' e e' h => h.eval⟩
  obtain ⟨v, n, hv, hn, hscalar, m, hm, hmod⟩ := eval_congruent hty h
  exact ⟨v, m, n, hv, hscalar, hm, hn, hmod⟩

/-- In `(-x) * 3i` both the negation and the product of the least word wrap. On unsigned words it
is `(0u - u32(x)) * 3u`. -/
theorem eval_modulo_word_least :
    let b := Bindings.empty.bind (identifier "x") (.i32 Int32.minValue)
    let signed := Expr.binary .multiply (identifier "x").neg.paren (intLiteral "3i")
    let unsigned := Expr.binary .multiply
      (Expr.binary .subtract (intLiteral "0u") (construct .u32 [identifier "x"])).paren
      (intLiteral "3u")
    (signed.Arithmetic b .i32 (Wraps .i32) ∧ ∃ v m n, signed.eval b = .ok v ∧ v.scalar = .i32 ∧
      v.integer? = some m ∧ signed.unbounded? b = some n ∧ m ≡ n [ZMOD 2 ^ 32]) ∧
    Reinterprets b b signed unsigned ∧
      ∃ word : UInt32, signed.eval b = .ok (.i32 word.toInt32) ∧
        unsigned.eval b = .ok (.u32 word) := by
  intro b signed unsigned
  have hx : (identifier "x").eval b = .ok (.i32 Int32.minValue) :=
    Bindings.lookup_bind_self .empty (identifier "x") _
  have hthree : (intLiteral "3i").eval b = .ok (.i32 3) := rfl
  have hsigned : signed.Arithmetic b .i32 (Wraps .i32) :=
    .binary rfl (.paren (.negate rfl (.leaf rfl hx rfl))) (.leaf rfl hthree rfl)
  have hboth : Reinterprets b b signed unsigned :=
    .binary rfl (.paren (.negate rfl (.leaf rfl rfl hx ((eval_construct hx).trans rfl))))
      (.leaf rfl rfl hthree rfl)
  exact ⟨⟨hsigned, eval_modulo_word.1 b .i32 signed (.inl rfl) hsigned⟩, hboth,
    eval_modulo_word.2 b b signed unsigned hboth⟩

end Expr

end Camouflage
