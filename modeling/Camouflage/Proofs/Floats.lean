import Camouflage.Proofs.Disguises
import Camouflage.Proofs.Uniforms
import Camouflage.Random.ChaCha

/-!
# Disguised floats stay exact

A whole number of a float type is disguised within the precise range. There every sum,
difference and product has operands and a result that are whole and have a positive sign,
and gives the result that integers would. So nothing is rounded on the way.
-/

namespace Camouflage

open Synth

/-! ## Whole numbers with a positive sign -/

/-- Whether a value has the type and is the whole number, with a positive sign. -/
def Value.IsWhole (ty : Scalar) (n : Nat) : Value → Prop
  | f32 x => ty = .f32 ∧ ∃ h, x = .finite false (n * Format.single.one) h
  | abstractFloat x => ty = .abstractFloat ∧ ∃ h, x = .finite false (n * Format.double.one) h
  | i32 _ | u32 _ | abstractInt _ => False

theorem Value.isWhole_of_ofMagnitude? {n : UInt32} {ty : Scalar} {v : Value}
    (h : ofMagnitude? n ty = some v) (hty : ty.isFloat = true) (hn : n.toNat ≤ 2 ^ 24) :
    v.IsWhole ty n.toNat := by
  have hwide : 2 ^ 24 ≤ 2 ^ Format.double.precision := by decide
  cases ty with
  | f32 =>
    rw [← Option.some.inj h]
    exact ⟨rfl, _, Binary.ofNat_eq Format.single_spacious hn⟩
  | abstractFloat =>
    rw [← Option.some.inj h]
    exact ⟨rfl, _, Binary.ofNat_eq Format.double_spacious (Nat.le_trans hn hwide)⟩
  | _ => cases hty

/-- An expression that is worth a whole number of the precise range. -/
def Expr.IsPrecise (b : Bindings) (ty : Scalar) (n : Nat) (e : Expr) : Prop :=
  n ≤ 2 ^ 24 ∧ ∃ v : Value, e.eval b = .ok v ∧ v.IsWhole ty n

/-- What is read as a whole number is finite, and its magnitude is that number. A zero may
be negative. -/
theorem Anchor.magnitudeOf_of_position? {x : Double} {n : Nat}
    (hx : x.position? = some (n * Format.double.one : Nat)) (hn : n ≤ 2 ^ 24) :
    x.isWhole = true ∧ magnitudeOf x = UInt32.ofNat n := by
  have hone := Format.double.one_pos
  have hbound := Format.double.bound_pos
  have hwide : 2 ^ 24 ≤ 2 ^ Format.double.precision := by decide
  have hsize : (UInt32.size : Int) = 2 ^ 32 := rfl
  have hlt := (Format.double_spacious.fits (Nat.le_trans hn hwide)).1
  cases x with
  | nan => cases hx
  | infinite negative =>
    cases negative with
    | false =>
      have := Option.some.inj hx
      omega
    | true =>
      have := Option.some.inj hx
      omega
  | finite negative units h =>
    have hunits : units = n * Format.double.one ∧ (negative = true → n = 0) := by
      cases negative with
      | false => exact ⟨Int.natCast_inj.1 (Option.some.inj hx), fun h => by cases h⟩
      | true =>
        have := Option.some.inj hx
        have hzero : n * Format.double.one = 0 := by omega
        exact ⟨by omega, fun _ => (Nat.mul_eq_zero.1 hzero).resolve_right (Nat.ne_of_gt hone)⟩
    constructor
    · show (units % Format.double.one == 0) = true
      rw [hunits.1, Nat.mul_mod_left]
      rfl
    · have hclamped : (Binary.finite negative units h).toIntClamped 0 (UInt32.size - 1) = n := by
        simp only [Binary.toIntClamped, hunits.1, Nat.mul_div_cancel _ hone, Binary.signed]
        split
        · have := hunits.2 (by assumption)
          omega
        · omega
      rw [magnitudeOf, hclamped, Int.toNat_natCast]

namespace Palette

variable {J : Type} [Membership Uniform J] {palette : Palette J}
variable {depth : Nat} {ty : Scalar} {n : UInt32} {e : Expr}

theorem isPrecise_of_computed {b : Bindings} (hty : ty.isFloat = true)
    (hb : b.Serves ty palette.uniforms) (h : Computed .float palette.uniforms ty n e) :
    e.IsPrecise b ty n.toNat := by
  have hn : n.toNat ≤ 2 ^ 24 := UInt32.le_iff_toNat_le.1 h.le_largest
  obtain ⟨v, hv, heval⟩ := h.eval (Synthesizer.handles_of_isFloat hty) hb
  exact ⟨hn, v, heval, Value.isWhole_of_ofMagnitude? hv hty hn⟩

variable [ShaderJob J] {σ : Type} [WordSource σ] {source : σ} {b : Bindings} {literal : Expr}
  {x : Double} {k : Disguise}

/-- Both forms of a disguised whole number are worth it, with a positive sign, wherever the
uniforms are bound to their values, and no operator of the expression rounds. -/
theorem float_exact {n : Nat} (hty : ty.isFloat = true)
    (huniforms : ∀ u ∈ palette.uniforms, u.WellFormed) (hb : b.Holds palette.uniforms)
    (hread : Literal.read literal = .ok x)
    (hx : x.position? = some (n * Format.double.one : Nat)) (hn : n ≤ 2 ^ 24)
    (h : outcome (palette.disguiseLiteral depth literal (.scalar ty)) source = .ok k) :
    k.literal.IsPrecise b ty n ∧ k.rewritten.IsPrecise b ty n ∧
      ∀ op lhs rhs, op.composes = true → .binary op lhs rhs ∈ k.rewritten.parts →
        ∃ l r m : Nat, (m : Int) = op.onIntegers l r ∧ lhs.IsPrecise b ty l ∧
          rhs.IsPrecise b ty r ∧ (Expr.binary op lhs rhs).IsPrecise b ty m := by
  have hserves := hb.serves huniforms ty
  have hprecise : ∀ {m : UInt32} {e : Expr}, Computed .float palette.uniforms ty m e →
      e.IsPrecise b ty m.toNat := isPrecise_of_computed hty hserves
  obtain ⟨hwhole, hmagnitude⟩ := Anchor.magnitudeOf_of_position? hx hn
  have hnat : (UInt32.ofNat n).toNat = n :=
    UInt32.toNat_ofNat_of_lt' (Nat.lt_of_le_of_lt hn (by decide))
  rw [disguiseLiteral_of_isFloat hty depth hread hwhole] at h
  obtain ⟨hliteral, hwritten⟩ := (disguiseWhole_ends hty depth x).of_ok h
  rw [hmagnitude] at hliteral hwritten
  have hcomputed := Computed.of_written hwritten
  refine ⟨hnat ▸ hprecise (.literal hliteral), hnat ▸ hprecise hcomputed, ?_⟩
  intro op lhs rhs hop hmem
  obtain ⟨l, r, m, hstep, hm, hl, hr⟩ := hcomputed.of_binary_mem_parts hserves.refersTo hop hmem
  have hexact : Synthesizer.float.domain ty ≠ .wrapping := by
    rw [Synthesizer.domain_float]
    decide
  -- the domain is not the wrapping one, so the step is one of integers
  exact ⟨l.toNat, r.toNat, m.toNat, hstep.integers hexact, hprecise hl, hprecise hr,
    hprecise (.step hstep hm hl hr)⟩

/-- A run on a whole number that draws on a uniform with a fraction. -/
theorem float_exact_twelve :
    ∃ k, outcome (disguiseLiteral ⟨2, .default, [Uniform.sample]⟩ 0 (.intLiteral "12")
        (.scalar .f32)) (ChaCha.ofSeed 0) = .ok k ∧
      k.literal.IsPrecise (.ofUniforms [.sample]) .f32 12 ∧
      k.rewritten.IsPrecise (.ofUniforms [.sample]) .f32 12 ∧
      ∀ op lhs rhs, op.composes = true → .binary op lhs rhs ∈ k.rewritten.parts →
        ∃ l r m : Nat, (m : Int) = op.onIntegers l r ∧
          lhs.IsPrecise (.ofUniforms [.sample]) .f32 l ∧
          rhs.IsPrecise (.ofUniforms [.sample]) .f32 r ∧
          (Expr.binary op lhs rhs).IsPrecise (.ofUniforms [.sample]) .f32 m := by
  have hrun : (outcome (disguiseLiteral ⟨2, .default, [Uniform.sample]⟩ 0 (.intLiteral "12")
      (.scalar .f32)) (ChaCha.ofSeed 0)).isOk = true := by decide +kernel
  obtain ⟨k, hk⟩ := exists_ok hrun
  have hread : ∃ x, Literal.read (.intLiteral "12") = .ok x ∧
      x.position? = some (12 * Format.double.one : Nat) :=
    ⟨.ofNat 12, by decide +kernel, by decide +kernel⟩
  obtain ⟨x, hread, hx⟩ := hread
  exact ⟨k, hk, float_exact rfl Uniform.allWellFormed_sample.each
    (Bindings.holds_ofUniforms Uniform.allWellFormed_sample) hread hx (by decide) hk⟩

end Palette

end Camouflage
