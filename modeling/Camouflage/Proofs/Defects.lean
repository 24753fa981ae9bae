import Camouflage.Proofs.Disguises
import Camouflage.Random.ChaCha

/-!
# Defects cannot show

A synthesizer that is given a type or a magnitude of the other one fails, and always with a
defect (`Synthesizer.isInternal_of_enter`). The entry points give each its own, so that the
checks for defects of the synthesis never fail, whatever the request is and whatever the
uniforms hold, as long as the uniforms are references of types that a buffer can have.
-/

namespace Camouflage

open Synth

/-! ## The checks of a synthesizer -/

namespace Synthesizer

variable {via : Synthesizer} {ty : Scalar} {n : UInt32}

/-- Whatever a synthesizer does not let pass is a defect of what called it. -/
theorem isInternal_of_enter {failure : Failure} (h : via.enter ty n = .error failure) :
    failure.isInternal = true := by
  cases hhandles : via.handles ty with
  | false =>
    rw [enter_of_not_handles hhandles] at h
    rw [← Except.error.inj h]
    rfl
  | true =>
    rcases UInt32.lt_or_le (via.domain ty).largest n with hlt | hle
    · rw [(enter_of_largest_lt hhandles hlt).2] at h
      rw [← Except.error.inj h]
      rfl
    · obtain ⟨literal, hliteral⟩ := enter_ok hhandles hle
      rw [hliteral] at h
      cases h

end Synthesizer

namespace Palette

/-! ## Refusals -/

variable {J : Type} [Membership Uniform J] {palette : Palette J}

/-- A magnitude is refused only for the weights or for what a uniform holds. -/
theorem isInternal_of_refused {via : Synthesizer} {ty : Scalar} (hhandles : via.handles ty = true)
    (href : ∀ u ∈ palette.uniforms, u.reference.isReference = true)
    (hconcrete : ∀ u ∈ palette.uniforms, u.ty.isAbstract = false) {levels depth : Nat}
    {failure : Failure} (h : palette.Refused via ty levels depth failure) :
    failure.isInternal = false := by
  rcases h with ⟨d, -, -, rfl, -⟩ | ⟨hty, u, hu, herror⟩
  · rfl
  · have hcontents := Synthesizer.contents_error_of_anchor (href u hu) hty hhandles herror
    exact Uniform.isInternal_of_contents (hconcrete u hu) hcontents

theorem isInternal_of_refusedInteger {ty : Scalar} {value : Int64}
    (href : ∀ u ∈ palette.uniforms, u.reference.isReference = true)
    (hconcrete : ∀ u ∈ palette.uniforms, u.ty.isAbstract = false) {depth : Nat}
    {failure : Failure} (h : palette.RefusedInteger depth ty value failure) :
    failure.isInternal = false := by
  rcases h with ⟨-, hrejected⟩ | ⟨htakes, hrefused⟩
  · exact hrejected
  · exact isInternal_of_refused (Synthesizer.handles_of_isInteger htakes.1) href hconcrete hrefused

/-! ## Runs -/

variable {σ : Type} [WordSource σ] [ShaderJob J]

/-- At every depth and with every job a synthesizer is stopped by a type that is not its
own. -/
theorem disguiseMagnitude_of_not_handles {via : Synthesizer} {ty : Scalar}
    (hhandles : via.handles ty = false) (depth : Nat) (n : UInt32) :
    (palette.disguiseMagnitude via depth ty n : Synth σ Disguise) =
      throw (.unreachableType ty) := by
  rw [disguiseMagnitude, Synthesizer.enter_of_not_handles hhandles]
  rfl

/-- So is the synthesizer of floats by an integer type. -/
example : outcome (disguiseMagnitude (⟨5, .default, ⟨⟩⟩ : Palette NoUniforms) .float 0 .i32 1)
    (ChaCha.ofSeed 0) = .error (.unreachableType .i32) := by
  decide +kernel

/-- A run on a literal fails where reading it does, where its number is not taken, or where
the integer or the magnitude is refused. -/
theorem disguiseLiteral_ends (href : ∀ u ∈ palette.uniforms, u.reference.isReference = true)
    (hconcrete : ∀ u ∈ palette.uniforms, u.ty.isAbstract = false) (depth : Nat) (e : Expr)
    (shape : Shape) :
    Ends (palette.disguiseLiteral depth e shape : Synth σ Disguise) (fun _ => True)
      (fun failure => failure.isInternal = false) := by
  unfold disguiseLiteral
  cases shape with
  | vector size ty => exact Ends.throw rfl
  | matrix columns rows ty => exact Ends.throw rfl
  | scalar ty =>
    dsimp only [Shape.scalar?]
    have hread : Ends (liftM (Literal.read e) : Synth σ Double) (fun _ => True)
        (fun failure => failure.isInternal = false) :=
      Ends.lift (fun _ _ => trivial) fun _ => Literal.isInternal_of_read
    refine hread.bind fun x _ => ?_
    have hwhole : Ends (liftM (Literal.requireWhole x) : Synth σ Double) (fun _ => True)
        (fun failure => failure.isInternal = false) := by
      refine Ends.lift (fun _ _ => trivial) fun failure h => ?_
      unfold Literal.requireWhole at h
      split at h
      · cases h
      · rw [← Except.error.inj h]
        rfl
    refine hwhole.bind fun number _ => ?_
    refine Ends.ite (fun _ => Ends.ite (fun _ => Ends.throw rfl) fun _ => ?_) fun _ =>
      Ends.ite (fun hfloat => ?_) fun _ => Ends.throw rfl
    · exact (disguiseInteger_ends depth _).mono (fun _ _ => trivial)
        fun _ => isInternal_of_refusedInteger href hconcrete
    · refine (disguiseWhole_ends hfloat depth number).mono (fun _ _ => trivial) ?_
      rintro failure (rfl | hrefused)
      · rfl
      · exact isInternal_of_refused (Synthesizer.handles_of_isFloat hfloat) href hconcrete hrefused

/-- Neither entry point fails with a defect. -/
theorem not_internal_of_error {depth : Nat} {value : Int64} {ty : Scalar} {e : Expr}
    {shape : Shape} {source : σ} {failure : Failure}
    (huniforms : ∀ u ∈ palette.uniforms,
      u.reference.isReference = true ∧ (u.ty = .bool ∨ u.ty = .i32 ∨ u.ty = .u32 ∨ u.ty = .f32))
    (h : outcome (palette.disguiseInteger depth value ty) source = .error failure ∨
      outcome (palette.disguiseLiteral depth e shape) source = .error failure) :
    failure.isInternal = false := by
  have href : ∀ u ∈ palette.uniforms, u.reference.isReference = true :=
    fun u hu => (huniforms u hu).1
  have hconcrete : ∀ u ∈ palette.uniforms, u.ty.isAbstract = false := by
    intro u hu
    rcases (huniforms u hu).2 with hty | hty | hty | hty
    · rw [hty]; rfl
    · rw [hty]; rfl
    · rw [hty]; rfl
    · rw [hty]; rfl
  rcases h with h | h
  · exact isInternal_of_refusedInteger href hconcrete
      ((disguiseInteger_ends depth value).of_error h)
  · exact (disguiseLiteral_ends href hconcrete depth e shape).of_error h

/-- Derives everything from a uniform whose contents are not whole. -/
def fractional : Palette := ⟨1, .only .uniform, [⟨.identifier "x", .floatLiteral "0.5", .i32⟩]⟩

/-- Such a uniform is the cause of a failure, but not of a defect. -/
theorem fractional_not_internal :
    outcome (fractional.disguiseInteger 0 7 .u32) (ChaCha.ofSeed 0) =
        .error (.unsupportedUniform "x" .i32) ∧
      (Failure.unsupportedUniform "x" .i32).isInternal = false := by
  have hrun : outcome (fractional.disguiseInteger 0 7 .u32) (ChaCha.ofSeed 0) =
      .error (.unsupportedUniform "x" .i32) := by decide +kernel
  have huniforms : ∀ u ∈ fractional.uniforms, u.reference.isReference = true ∧
      (u.ty = .bool ∨ u.ty = .i32 ∨ u.ty = .u32 ∨ u.ty = .f32) := by decide
  have hfails : outcome (fractional.disguiseInteger 0 7 .u32) (ChaCha.ofSeed 0) =
        .error (.unsupportedUniform "x" .i32) ∨
      outcome (fractional.disguiseLiteral 0 (.intLiteral "7") (.scalar .u32)) (ChaCha.ofSeed 0) =
        .error (.unsupportedUniform "x" .i32) := .inl hrun
  exact ⟨hrun, not_internal_of_error huniforms hfails⟩

end Palette

end Camouflage
