import Camouflage.Proofs.Anchors

/-!
# The parts of an expression

The nodes of an expression outside of its references, which are leaves here as they are
for evaluation. Literals are leaves under a sign or a conversion, and an anchor is one of
four expressions over its reference (`Anchor.Shape`).
-/

namespace Camouflage

namespace Expr

mutual

/-- The nodes of an expression, itself among them. A reference counts as one node. -/
def parts : Expr → List Expr
  | boolLiteral value => [boolLiteral value]
  | intLiteral text => [intLiteral text]
  | floatLiteral text => [floatLiteral text]
  | identifier name => [identifier name]
  | member receiver name => [member receiver name]
  | index target position => [index target position]
  | unary op target => unary op target :: target.parts
  | binary op lhs rhs => binary op lhs rhs :: (lhs.parts ++ rhs.parts)
  | call callee args => call callee args :: partsList args
  | construct ty args => construct ty args :: partsList args
  | paren inner => paren inner :: inner.parts
termination_by structural e => e

/-- The nodes of a list of expressions. -/
def partsList : List Expr → List Expr
  | [] => []
  | e :: es => e.parts ++ partsList es
termination_by structural es => es

end

theorem parts_of_isReference {e : Expr} (h : e.isReference = true) : e.parts = [e] := by
  cases e with
  | identifier name => rfl
  | member receiver name => rfl
  | index target position => rfl
  | _ => cases h

@[simp] theorem parts_unary (op : UnaryOp) (e : Expr) : (unary op e).parts = unary op e :: e.parts :=
  rfl

@[simp] theorem parts_binary (op : BinaryOp) (lhs rhs : Expr) :
    (binary op lhs rhs).parts = binary op lhs rhs :: (lhs.parts ++ rhs.parts) :=
  rfl

@[simp] theorem parts_call (callee : String) (e : Expr) :
    (call callee [e]).parts = call callee [e] :: e.parts := by
  simp [parts, partsList]

@[simp] theorem parts_construct (ty : Scalar) (e : Expr) :
    (construct ty [e]).parts = construct ty [e] :: e.parts := by
  simp [parts, partsList]

/-- Whether the expression is made of one literal of a number, behind any signs and
conversions. -/
def isLoneLiteral : Expr → Bool
  | intLiteral _ | floatLiteral _ => true
  | unary _ target => target.isLoneLiteral
  | construct _ [arg] => arg.isLoneLiteral
  | _ => false
termination_by structural e => e

theorem isLoneLiteral_of_mem_parts {e part : Expr} (h : e.isLoneLiteral = true)
    (hpart : part ∈ e.parts) : part.isLoneLiteral = true := by
  fun_induction isLoneLiteral e with
  | case1 text =>
    rw [List.mem_singleton.1 hpart]
    rfl
  | case2 text =>
    rw [List.mem_singleton.1 hpart]
    rfl
  | case3 op target ih =>
    rw [parts_unary] at hpart
    rcases List.mem_cons.1 hpart with rfl | hpart
    · exact h
    · exact ih h hpart
  | case4 ty arg ih =>
    rw [parts_construct] at hpart
    rcases List.mem_cons.1 hpart with rfl | hpart
    · exact h
    · exact ih h hpart
  | case5 => cases h

end Expr

/-! ## Literals -/

namespace Literal

theorem isLoneLiteral_signed {kind : String → Expr} (hkind : ∀ text, (kind text).isLoneLiteral = true)
    (n : Int) (suffix : String) : (signed n suffix kind).isLoneLiteral = true := by
  unfold signed ofMagnitude
  split
  · exact hkind _
  · exact hkind _

theorem isLoneLiteral_of_write {word : Int64} {ty : Scalar} {e : Expr} (h : write word ty = .ok e) :
    e.isLoneLiteral = true := by
  have hint : ∀ n suffix, (signed n suffix .intLiteral).isLoneLiteral = true :=
    isLoneLiteral_signed fun _ => rfl
  have hfloat : ∀ n suffix, (signed n suffix .floatLiteral).isLoneLiteral = true :=
    isLoneLiteral_signed fun _ => rfl
  unfold write at h
  cases ty with
  | bool => cases h
  | i32 =>
    dsimp only at h
    split at h
    · cases h
    · split at h
      · rw [← Except.ok.inj h]
        exact hint _ _
      · rw [← Except.ok.inj h]
        exact hint _ _
  | u32 =>
    dsimp only at h
    split at h
    · cases h
    · rw [← Except.ok.inj h]
      exact hint _ _
  | abstractInt =>
    rw [← Except.ok.inj h]
    exact hint _ _
  | f32 =>
    dsimp only at h
    split at h
    · rw [← Except.ok.inj h]
      exact hfloat _ _
    · cases h
  | abstractFloat =>
    dsimp only at h
    split at h
    · rw [← Except.ok.inj h]
      exact hfloat _ _
    · cases h

theorem isLoneLiteral_of_writeMagnitude {n : UInt32} {ty : Scalar} {e : Expr}
    (h : writeMagnitude n ty = .ok e) : e.isLoneLiteral = true := by
  unfold writeMagnitude at h
  split at h
  · exact isLoneLiteral_of_write h
  · exact isLoneLiteral_of_write h

/-- A literal has no operator of two operands. -/
theorem binary_not_mem_parts_of_write {word : Int64} {ty : Scalar} {e : Expr}
    (h : write word ty = .ok e) (op : BinaryOp) (lhs rhs : Expr) :
    .binary op lhs rhs ∉ e.parts := by
  intro hmem
  cases Expr.isLoneLiteral_of_mem_parts (isLoneLiteral_of_write h) hmem

theorem binary_not_mem_parts_of_writeMagnitude {n : UInt32} {ty : Scalar} {e : Expr}
    (h : writeMagnitude n ty = .ok e) (op : BinaryOp) (lhs rhs : Expr) :
    .binary op lhs rhs ∉ e.parts := by
  intro hmem
  cases Expr.isLoneLiteral_of_mem_parts (isLoneLiteral_of_writeMagnitude h) hmem

/-- The literal of a magnitude of an abstract type is a single node. -/
theorem parts_of_writeMagnitude {n : UInt32} {ty : Scalar} {e : Expr}
    (hty : ty.isAbstract = true) (h : writeMagnitude n ty = .ok e) : e.parts = [e] := by
  have hsigned : ∀ suffix kind, signed n.toUInt64.toInt64.toInt suffix kind =
      ofMagnitude n.toNat suffix kind := by
    intro suffix kind
    rw [toInt_toUInt64_toInt64, signed_natCast]
  cases ty with
  | abstractInt =>
    rw [← Except.ok.inj h, hsigned]
    rfl
  | abstractFloat =>
    simp only [writeMagnitude, write, hsigned] at h
    split at h
    · rw [← Except.ok.inj h]
      rfl
    · cases h
  | _ => cases hty

end Literal

/-! ## Anchors -/

namespace Anchor

/-- The expressions over a reference that anchors of a type are. -/
inductive Shape (reference : Expr) : Scalar → Expr → Prop
  | reference {ty} : Shape reference ty reference
  | construct {ty} : Shape reference ty (.construct ty [reference])
  | trunc : Shape reference .f32 (.call "trunc" [reference])
  | reduced {base modulus} :
      base = reference ∨ base = .call "trunc" [reference] →
      Literal.write (preciseLimit.toUInt64.toInt64 + 1) .u32 = .ok modulus →
      Shape reference .f32
        (.construct .f32 [.binary .modulo (.construct .u32 [.call "abs" [base]]) modulus])

theorem shape_of_ofInteger {u : Uniform} {v : Value} {ty : Scalar} {anchor : Anchor}
    (h : ofInteger u v ty = .ok anchor) : Shape u.reference ty anchor.expr := by
  unfold ofInteger at h
  split at h
  · obtain ⟨w, -, h⟩ := exists_of_bind_eq_ok h
    split at h
    · rw [← Except.ok.inj h]
      dsimp only
      split
      · exact .reference
      · exact .construct
    · cases h
  · cases h

theorem base_cases {u : Uniform} {v : Value} {e : Expr} (h : base u v = .ok e) :
    e = u.reference ∨ (v.scalar = .f32 ∧ e = .call "trunc" [u.reference]) := by
  unfold base at h
  split at h
  · rw [← Except.ok.inj h]
    split
    · exact .inl rfl
    · exact .inr ⟨rfl, rfl⟩
  · exact .inl (Except.ok.inj h).symm
  · exact .inl (Except.ok.inj h).symm
  · cases h
  · cases h

theorem shape_of_reduced {reference base e : Expr}
    (hbase : base = reference ∨ base = .call "trunc" [reference]) (h : reduced base = .ok e) :
    Shape reference .f32 e := by
  obtain ⟨modulus, hwrite, h⟩ := exists_of_bind_eq_ok h
  rw [← Except.ok.inj h]
  exact .reduced hbase hwrite

theorem shape_of_ofSingle {u : Uniform} {v : Value} {ty : Scalar} {anchor : Anchor}
    (h : ofSingle u v ty = .ok anchor) : Shape u.reference ty anchor.expr := by
  unfold ofSingle at h
  split at h
  · rename_i hty
    subst hty
    obtain ⟨e, hbase, h⟩ := exists_of_bind_eq_ok h
    obtain ⟨w, -, h⟩ := exists_of_bind_eq_ok h
    have hcases := base_cases hbase
    dsimp only at h
    split at h
    · rw [← Except.ok.inj h]
      dsimp only
      split
      · rcases hcases with rfl | ⟨-, rfl⟩
        · exact .reference
        · exact .trunc
      · rename_i hscalar
        -- only a value of single precision has a fraction to be cut off
        rcases hcases with rfl | ⟨hsingle, -⟩
        · exact .construct
        · exact absurd hsingle hscalar
    · obtain ⟨expr, hreduced, h⟩ := exists_of_bind_eq_ok h
      obtain ⟨x, -, h⟩ := exists_of_bind_eq_ok h
      have hshape := shape_of_reduced (hcases.imp id And.right) hreduced
      split at h
      · rw [← Except.ok.inj h]
        exact hshape
      · cases h
  · cases h

/-- Whatever the uniform holds, its anchors are of one of these shapes. -/
theorem shape_of_synthesizer {via : Synthesizer} {u : Uniform} {ty : Scalar} {anchor : Anchor}
    (h : via.anchor u ty = .ok anchor) : Shape u.reference ty anchor.expr := by
  obtain ⟨v, -, h⟩ := exists_of_bind_eq_ok h
  cases via with
  | integer => exact shape_of_ofInteger h
  | float => exact shape_of_ofSingle h

/-- The only operator of two operands in an anchor is the remainder of its reduction. -/
theorem Shape.eq_modulo_of_mem {reference e : Expr} {ty : Scalar} (h : Shape reference ty e)
    (href : reference.isReference = true) {op : BinaryOp} {lhs rhs : Expr}
    (hmem : .binary op lhs rhs ∈ e.parts) : op = .modulo := by
  have hreference : .binary op lhs rhs ∉ reference.parts := by
    rw [Expr.parts_of_isReference href]
    intro hself
    rw [← List.mem_singleton.1 hself] at href
    cases href
  cases h with
  | reference => exact absurd hmem hreference
  | construct => simp [hreference] at hmem
  | trunc => simp [hreference] at hmem
  | reduced hbase hwrite =>
    have hmodulus := Literal.binary_not_mem_parts_of_write hwrite op lhs rhs
    rcases hbase with rfl | rfl
    · simp [hreference, hmodulus] at hmem
      exact hmem.1
    · simp [hreference, hmodulus] at hmem
      exact hmem.1

end Anchor

end Camouflage
