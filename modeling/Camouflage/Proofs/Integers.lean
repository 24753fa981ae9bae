import Camouflage.Proofs.Disguises
import Camouflage.Proofs.Uniforms
import Camouflage.Random.ChaCha

/-!
# Disguised integers keep their value

Both forms of a disguised integer are worth it: as a word of the concrete type, with sums
and products that wrap, or as an abstract integer, which nothing below the sign leaves the
magnitudes of 32 bits to compose.
-/

namespace Camouflage

open Synth

/-! ## Words and integers -/

theorem toInt_toInt32 (n : UInt32) :
    n.toInt32.toInt = if n.toNat < 2 ^ 31 then (n.toNat : Int) else n.toNat - 2 ^ 32 := by
  have hnat : n.toBitVec.toNat = n.toNat := rfl
  show n.toBitVec.toInt = _
  rw [BitVec.toInt_eq_toNat_cond, hnat]
  split
  · rw [if_pos (by omega)]
  · rw [if_neg (by omega)]
    rfl

/-- The integer that the bits of a magnitude stand for. -/
def Scalar.integerOf (ty : Scalar) (n : UInt32) : Int :=
  if ty = .i32 then n.toInt32.toInt else n.toNat

/-- The value of a magnitude has its type and the integer that its bits stand for. -/
theorem Value.integer?_of_ofMagnitude? {n : UInt32} {ty : Scalar} {v : Value}
    (h : Value.ofMagnitude? n ty = some v) (hty : ty.isInteger = true) :
    v.scalar = ty ∧
      v.integer? = some (ty.integerOf n) := by
  cases ty with
  | i32 =>
    rw [← Option.some.inj h]
    exact ⟨rfl, rfl⟩
  | u32 =>
    rw [← Option.some.inj h]
    exact ⟨rfl, rfl⟩
  | abstractInt =>
    rw [← Option.some.inj h]
    exact ⟨rfl, congrArg some (Literal.toInt_toUInt64_toInt64 n)⟩
  | _ => cases hty

/-- An integer is what the bits of its magnitude stand for if it is not negative. The least
signed word is too. -/
theorem Scalar.Takes.integerOf_eq {ty : Scalar} {value : Int} (h : ty.Takes value)
    (hplain : 0 ≤ value ∨ (ty = .i32 ∧ value = Int32.minValue.toInt)) {n : UInt32}
    (hn : n.toNat = value.natAbs) : ty.integerOf n = value := by
  have hmin := Int32.toInt_minValue
  have hmax := Int32.toInt_maxValue
  obtain ⟨-, hlow, hhigh⟩ := h
  unfold Scalar.integerOf
  split
  · rename_i hty
    rw [hty] at hlow hhigh
    simp only [Scalar.integerRange] at hlow hhigh
    rw [toInt_toInt32]
    split <;> omega
  · rename_i hty
    have hnonneg := hplain.resolve_right fun hleast => hty hleast.1
    omega

/-- With a negative integer its negation is taken too, but for the least signed word. -/
theorem Scalar.Takes.neg {ty : Scalar} {value : Int} (h : ty.Takes value) (hneg : value < 0)
    (hleast : ty = .i32 → value ≠ Int32.minValue.toInt) : ty.Takes (-value) := by
  have hmin := Int32.toInt_minValue
  have hmax := Int32.toInt_maxValue
  obtain ⟨hinteger, hlow, hhigh⟩ := h
  refine ⟨hinteger, ?_⟩
  cases ty with
  | i32 =>
    have hne := hleast rfl
    simp only [Scalar.integerRange] at hlow hhigh ⊢
    omega
  | u32 => exact absurd hlow (Int.not_le.2 hneg)
  | abstractInt =>
    simp only [Scalar.integerRange] at hlow hhigh ⊢
    omega
  | _ => cases hinteger

/-- A positive value of a signed type can be negated. -/
theorem UnaryOp.exists_negate {v : Value} {n : Int} (hv : v.integer? = some n) (hpos : 0 < n)
    (hsigned : v.scalar ≠ .u32) :
    ∃ w, negate.apply v = .ok w ∧ w.scalar = v.scalar ∧ w.integer? = some (-n) := by
  cases v with
  | i32 m =>
    obtain rfl := Option.some.inj hv
    have hne : m ≠ Int32.minValue := by
      rintro rfl
      exact absurd hpos (by decide)
    exact ⟨_, rfl, rfl, congrArg some (toInt_neg_of_ne hne)⟩
  | u32 m => exact absurd rfl hsigned
  | abstractInt m =>
    obtain rfl := Option.some.inj hv
    have hhigh := m.toInt_lt
    have hneg : (-m).toInt = -m.toInt := by
      rw [Int64.toInt_neg, Int.bmod_eq_of_le (by omega) (by omega)]
    exact ⟨_, Value.exact_eq_ok_iff.2 ⟨-m, hneg, rfl⟩, rfl, congrArg some hneg⟩
  | f32 x => cases hv
  | abstractFloat x => cases hv

theorem Literal.writeMagnitude_eq_write {ty : Scalar} {n : UInt32} {value : Int64}
    (h : ty.integerOf n = value.toInt) : writeMagnitude n ty = write value ty := by
  unfold Scalar.integerOf at h
  unfold writeMagnitude
  split
  · rw [if_pos rfl] at h
    have hword : n.toInt32.toInt64 = value := Int64.toInt_inj.1 (by rw [Int32.toInt_toInt64, h])
    rw [hword]
  · rename_i hty
    rw [if_neg hty] at h
    have hword : n.toUInt64.toInt64 = value :=
      Int64.toInt_inj.1 (by rw [toInt_toUInt64_toInt64, h])
    rw [hword]

namespace Palette

variable {J : Type} [Membership Uniform J] {palette : Palette J}
variable {depth : Nat} {ty : Scalar} {value : Int64} {k : Disguise}

/-- The literal of a disguise is the literal of the integer. -/
theorem Disguised.write_eq (htakes : ty.Takes value.toInt)
    (h : palette.Disguised depth ty value k) : Literal.write value ty = .ok k.literal := by
  cases h with
  | negation _ _ _ hwrite _ => exact hwrite
  | magnitude hplain hnat hliteral _ =>
    rw [← Literal.writeMagnitude_eq_write (htakes.integerOf_eq hplain hnat)]
    exact (Synthesizer.enter_eq_ok_iff.1 hliteral).2.2

/-- What is written for a magnitude has its type and the integer that its bits stand for. -/
theorem Written.eval {levels : Nat} {n : UInt32} {e : Expr} {b : Bindings}
    (hty : ty.isInteger = true) (hb : b.Serves ty palette.uniforms)
    (h : palette.Written .integer ty levels depth n e) :
    ∃ v, v.scalar = ty ∧ v.integer? = some (ty.integerOf n) ∧ e.eval b = .ok v := by
  obtain ⟨v, hv, heval⟩ :=
    (Computed.of_written h).eval (Synthesizer.handles_of_isInteger hty) hb
  obtain ⟨hscalar, hinteger⟩ := Value.integer?_of_ofMagnitude? hv hty
  exact ⟨v, hscalar, hinteger, heval⟩

/-- The expression of a disguise is worth the integer. -/
theorem Disguised.eval_rewritten {b : Bindings} (htakes : ty.Takes value.toInt)
    (hb : b.Serves ty palette.uniforms) (h : palette.Disguised depth ty value k) :
    ∃ v, v.scalar = ty ∧ v.integer? = some value.toInt ∧ k.rewritten.eval b = .ok v := by
  cases h with
  | magnitude hplain hnat _ hwritten =>
    have heval := hwritten.eval htakes.1 hb
    rwa [htakes.integerOf_eq hplain hnat] at heval
  | @negation n literal body hneg hleast hnat _ hwritten =>
    obtain ⟨v, hscalar, hinteger, heval⟩ := hwritten.eval htakes.1 hb
    -- the negation is taken too, so its magnitude is worth it and can be negated back
    have hmagnitude : ty.integerOf n = -value.toInt :=
      (htakes.neg hneg hleast).integerOf_eq (.inl (by omega)) (by omega)
    have hsigned : v.scalar ≠ .u32 := by
      intro hunsigned
      rw [← hscalar, hunsigned] at htakes
      exact absurd htakes.2.1 (Int.not_le.2 hneg)
    rw [hmagnitude] at hinteger
    obtain ⟨w, happly, hwscalar, hw⟩ := UnaryOp.exists_negate hinteger (by omega) hsigned
    rw [Int.neg_neg] at hw
    exact ⟨w, hwscalar.trans hscalar, hw, by rw [Expr.eval_unary heval, happly]⟩

variable [ShaderJob J] {σ : Type} [WordSource σ] {source : σ} {b : Bindings}

/-- Both forms of a disguised integer are worth one value, of the type and with the integer
asked for. -/
theorem eval_of_disguiseInteger (hb : b.Serves ty palette.uniforms)
    (h : outcome (palette.disguiseInteger depth value ty) source = .ok k) :
    ∃ v, v.scalar = ty ∧ v.integer? = some value.toInt ∧ k.literal.eval b = .ok v ∧
      k.rewritten.eval b = .ok v := by
  obtain ⟨htakes, hdisguised⟩ := (disguiseInteger_ends depth value).of_ok h
  obtain ⟨v, hscalar, hinteger, hrewritten⟩ := hdisguised.eval_rewritten htakes hb
  obtain ⟨literal, w, hwrite, hwscalar, hw, hliteral⟩ := htakes.exists_write
  rw [hdisguised.write_eq htakes] at hwrite
  obtain rfl := Except.ok.inj hwrite
  have heq : w = v := Value.eq_of_integer? (hwscalar.trans hscalar.symm) hw hinteger
  exact ⟨v, hscalar, hinteger, by rw [hliteral b, heq], hrewritten⟩

/-- A disguised integer is worth exactly the word asked for, wherever the uniforms are bound
to their values. -/
theorem integer_preserved (huniforms : ∀ u ∈ palette.uniforms, u.WellFormed)
    (hb : b.Holds palette.uniforms)
    (h : outcome (palette.disguiseInteger depth value ty) source = .ok k) :
    Literal.write value ty = .ok k.literal ∧
      ∃ v, v.scalar = ty ∧ v.integer? = some value.toInt ∧ k.literal.eval b = .ok v ∧
        k.rewritten.eval b = .ok v := by
  have hserves := hb.serves huniforms ty
  obtain ⟨htakes, hdisguised⟩ := (disguiseInteger_ends depth value).of_ok h
  exact ⟨hdisguised.write_eq htakes, eval_of_disguiseInteger hserves h⟩

/-- A run on a negative word, over a uniform of another type. -/
theorem integer_preserved_negative :
    ∃ k, outcome (disguiseInteger ⟨3, .default, [Uniform.sample]⟩ 0 (-7) .i32)
        (ChaCha.ofSeed 0) = .ok k ∧
      Literal.write (-7) .i32 = .ok k.literal ∧
      ∃ v, v.scalar = .i32 ∧ v.integer? = some (-7) ∧
        k.literal.eval (.ofUniforms [.sample]) = .ok v ∧
        k.rewritten.eval (.ofUniforms [.sample]) = .ok v := by
  have hrun : (outcome (disguiseInteger ⟨3, .default, [Uniform.sample]⟩ 0 (-7) .i32)
      (ChaCha.ofSeed 0)).isOk = true := by decide +kernel
  obtain ⟨k, hk⟩ := exists_ok hrun
  exact ⟨k, hk, integer_preserved Uniform.allWellFormed_sample.each
    (Bindings.holds_ofUniforms Uniform.allWellFormed_sample) hk⟩

/-! ## Abstract integers -/

/-- A node that is worth a magnitude of 32 bits without any bindings. -/
def IsSmall (e : Expr) : Prop :=
  e.isReference = false ∧
    ∃ m : Int64, e.eval .empty = .ok (.abstractInt m) ∧ 0 ≤ m.toInt ∧ m.toInt ≤ 2 ^ 32 - 1

omit [ShaderJob J] in
theorem isSmall_of_computed {uniforms : J} {n : UInt32} {e : Expr}
    (h : Computed .integer uniforms .abstractInt n e) : IsSmall e := by
  have hserves : Bindings.empty.Serves .abstractInt uniforms := Bindings.serves_of_isAbstract rfl
  obtain ⟨v, hv, heval⟩ := h.eval rfl hserves
  obtain rfl := Option.some.inj hv
  constructor
  · by_contra href
    rw [Expr.eval_of_isReference (Bool.eq_true_of_not_eq_false href)] at heval
    cases heval
  · have hword := Literal.toInt_toUInt64_toInt64 n
    have hlt := n.toNat_lt
    exact ⟨_, heval, by omega, by omega⟩

/-- A disguised abstract integer is worth it without any bindings, and below the sign of a
negative one no part leaves the magnitudes of 32 bits or refers to a uniform. -/
theorem abstract_never_wraps
    (h : outcome (palette.disguiseInteger depth value .abstractInt) source = .ok k) :
    k.literal.eval .empty = .ok (.abstractInt value) ∧
      k.rewritten.eval .empty = .ok (.abstractInt value) ∧
      ∃ body, k.rewritten = (if value.toInt < 0 then body.neg else body) ∧
        ∀ part ∈ body.parts, IsSmall part := by
  have hserves : Bindings.empty.Serves .abstractInt palette.uniforms :=
    Bindings.serves_of_isAbstract rfl
  obtain ⟨v, hscalar, hinteger, hliteral, hrewritten⟩ := eval_of_disguiseInteger hserves h
  have hvalue : v = .abstractInt value := Value.eq_of_integer? hscalar hinteger rfl
  rw [hvalue] at hliteral hrewritten
  refine ⟨hliteral, hrewritten, ?_⟩
  obtain ⟨-, hdisguised⟩ := (disguiseInteger_ends depth value).of_ok h
  -- with and without a sign the body is what was written for the magnitude
  have hsmall : ∀ {n e}, palette.Written .integer .abstractInt (palette.maxDepth - depth)
      depth n e → ∀ part ∈ e.parts, IsSmall part := by
    intro n e hwritten part hpart
    obtain ⟨m, hm⟩ := (Computed.of_written hwritten).of_mem_parts rfl hpart
    exact isSmall_of_computed hm
  cases hdisguised with
  | magnitude hplain _ _ hwritten =>
    have hnonneg : 0 ≤ value.toInt := hplain.resolve_right fun hleast => by cases hleast.1
    exact ⟨_, (if_neg (Int.not_lt.2 hnonneg)).symm, hsmall hwritten⟩
  | negation hneg _ _ _ hwritten => exact ⟨_, (if_pos hneg).symm, hsmall hwritten⟩

/-- A run on the least abstract integer, which is at the end of the range. -/
theorem abstract_never_wraps_least :
    ∃ k, outcome (disguiseInteger ⟨2, .default, [Uniform.sample]⟩ 0 (-4294967295) .abstractInt)
        (ChaCha.ofSeed 1) = .ok k ∧
      k.literal.eval .empty = .ok (.abstractInt (-4294967295)) ∧
      k.rewritten.eval .empty = .ok (.abstractInt (-4294967295)) ∧
      ∃ body : Expr, k.rewritten = body.neg ∧ ∀ part ∈ body.parts, IsSmall part := by
  have hrun : (outcome (disguiseInteger ⟨2, .default, [Uniform.sample]⟩ 0 (-4294967295)
      .abstractInt) (ChaCha.ofSeed 1)).isOk = true := by decide +kernel
  obtain ⟨k, hk⟩ := exists_ok hrun
  exact ⟨k, hk, abstract_never_wraps hk⟩

end Palette

end Camouflage
