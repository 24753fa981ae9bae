import Camouflage.Proofs.Requests
import Camouflage.Random.ChaCha

/-!
# What a run does not depend on

Synthesis looks at weights only between the depth it starts from and the limit, and at the
job only if the strategy for uniforms can be chosen there. Two palettes that agree on that much
(`Palette.AgreesWith`) make the same run on every request: the same result or failure, and the
same draws.
-/

namespace Camouflage

open Synth

/-- The scalar type that is asked for, if it is one. -/
def Request.scalar? : Request → Option Scalar
  | .integer _ ty => some ty
  | .literal _ shape => shape.scalar?

section Write

variable {σ : Type} [WordSource σ] {J J' : Type} [Membership Uniform J] [ShaderJob J]
variable [Membership Uniform J'] [ShaderJob J'] {uniforms : J} {uniforms' : J'}

/-- Only the strategy for uniforms looks at the job. -/
theorem Strategy.write_congr {s : Strategy} (hs : s ≠ .uniform) (via : Synthesizer) (ty : Scalar)
    (deeper : UInt32 → Synth σ Expr) (literal : Expr) (value : UInt32) :
    s.write via uniforms ty deeper literal value =
      s.write via uniforms' ty deeper literal value := by
  cases s with
  | uniform => exact absurd rfl hs
  | _ => rfl

/-- From a job that is like another one the same is written. -/
theorem Strategy.write_of_alike (halike : ShaderJob.Alike uniforms uniforms') (s : Strategy)
    (via : Synthesizer) (ty : Scalar) (deeper : UInt32 → Synth σ Expr) (literal : Expr)
    (value : UInt32) :
    s.write via uniforms ty deeper literal value =
      s.write via uniforms' ty deeper literal value := by
  cases s with
  | uniform =>
    unfold write writeFromUniform
    rw [halike]
  | _ => rfl

end Write

namespace Palette

variable {J J' : Type} [Membership Uniform J] [ShaderJob J] [Membership Uniform J'] [ShaderJob J']

/-- Whether two palettes are the same for what is written in a type from a depth on. Schedules
may differ elsewhere and in how they are given, and the jobs where no uniform can be chosen. -/
structure AgreesWith (palette : Palette J) (other : Palette J') (ty : Scalar) (depth : Nat) :
    Prop where
  maxDepth_eq : palette.maxDepth = other.maxDepth
  weight_eq : ∀ d, depth ≤ d → d < palette.maxDepth → ∀ s,
    palette.weights.weight s d = other.weights.weight s d
  uniforms_alike : ShaderJob.Alike palette.uniforms other.uniforms ∨ ty.isAbstract = true ∨
    ∀ d, depth ≤ d → d < palette.maxDepth → palette.weights.weight .uniform d = 0

variable {palette : Palette J} {other : Palette J'} {ty : Scalar} {depth : Nat}

namespace AgreesWith

theorem deeper (h : palette.AgreesWith other ty depth) : palette.AgreesWith other ty (depth + 1) where
  maxDepth_eq := h.maxDepth_eq
  weight_eq d hlow := h.weight_eq d (Nat.le_of_succ_le hlow)
  uniforms_alike :=
    h.uniforms_alike.imp id (Or.imp id fun hzero d hlow => hzero d (Nat.le_of_succ_le hlow))

theorem candidates_eq (h : palette.AgreesWith other ty depth) (hdepth : depth < palette.maxDepth) :
    palette.candidates ty depth = other.candidates ty depth := by
  refine List.map_congr_left fun s _ => ?_
  rw [h.weight_eq depth (Nat.le_refl depth) hdepth s]

/-- Where the jobs differ, no strategy that can be chosen looks at them. -/
theorem ne_uniform (h : palette.AgreesWith other ty depth) (hdepth : depth < palette.maxDepth)
    (hunlike : ¬ ShaderJob.Alike palette.uniforms other.uniforms) {s : Strategy}
    (hs : palette.Enabled ty depth s) : s ≠ .uniform := by
  rintro rfl
  rcases h.uniforms_alike with halike | habstract | hzero
  · exact hunlike halike
  · exact hs.1 habstract rfl
  · exact hs.2 (hzero depth (Nat.le_refl depth) hdepth)

end AgreesWith

variable {σ : Type} [WordSource σ]

/-! ## Runs -/

theorem express_congr (h : palette.AgreesWith other ty depth) (via : Synthesizer) {levels : Nat}
    (hlevels : levels ≤ palette.maxDepth - depth) (n : UInt32) :
    (palette.express via ty levels depth n : Synth σ Expr) =
      other.express via ty levels depth n := by
  induction levels generalizing depth n with
  | zero => rfl
  | succ levels ih =>
    have hdepth : depth < palette.maxDepth := by omega
    have hdeeper : (palette.express via ty levels (depth + 1) : UInt32 → Synth σ Expr) =
        other.express via ty levels (depth + 1) :=
      funext fun m => ih h.deeper (by omega) m
    rw [express_succ, express_succ]
    refine bind_congr fun literal => ?_
    rw [← h.candidates_eq hdepth, ← hdeeper]
    refine Ends.bind_congr (choose_ends depth : Ends _ _ fun _ => True) ?_
    intro chosen hchosen
    cases chosen with
    | none => rfl
    | some s =>
      by_cases halike : ShaderJob.Alike palette.uniforms other.uniforms
      · exact Strategy.write_of_alike halike ..
      · exact Strategy.write_congr (h.ne_uniform hdepth halike hchosen) ..

theorem disguiseMagnitude_congr (h : palette.AgreesWith other ty depth) (via : Synthesizer)
    (n : UInt32) :
    (palette.disguiseMagnitude via depth ty n : Synth σ Disguise) =
      other.disguiseMagnitude via depth ty n := by
  unfold disguiseMagnitude
  rw [express_congr h via (Nat.le_refl _) n, h.maxDepth_eq]

theorem disguiseInteger_congr (h : palette.AgreesWith other ty depth) (value : Int64) :
    (palette.disguiseInteger depth value ty : Synth σ Disguise) =
      other.disguiseInteger depth value ty := by
  unfold disguiseInteger
  simp only [disguiseMagnitude_congr h]

theorem disguiseWhole_congr (h : palette.AgreesWith other ty depth) (x : Double) :
    (palette.disguiseWhole depth x ty : Synth σ Disguise) = other.disguiseWhole depth x ty := by
  unfold disguiseWhole
  simp only [disguiseMagnitude_congr h]

theorem disguiseLiteral_congr {shape : Shape}
    (h : ∀ ty, shape.scalar? = some ty → palette.AgreesWith other ty depth) (e : Expr) :
    (palette.disguiseLiteral depth e shape : Synth σ Disguise) =
      other.disguiseLiteral depth e shape := by
  unfold disguiseLiteral
  cases hty : shape.scalar? with
  | none => rfl
  | some ty => simp only [disguiseInteger_congr (h ty hty), disguiseWhole_congr (h ty hty)]

/-- Palettes that agree on the weights between the depth and the limit, and whose jobs are alike
unless no uniform can be chosen there, make the same run on a request. -/
theorem disguise_congr {request : Request}
    (h : ∀ ty, request.scalar? = some ty → palette.AgreesWith other ty depth) :
    (palette.disguise depth request : Synth σ Disguise) = other.disguise depth request := by
  cases request with
  | integer value ty => exact disguiseInteger_congr (h ty rfl) value
  | literal e shape => exact disguiseLiteral_congr h e

/-- Weights listed for the two depths that count, and a shader without uniforms, in place of the
default schedules and a uniform that an abstract integer cannot use. -/
theorem disguise_congr_listed :
    (disguise ⟨2, .default, [Uniform.sample]⟩ 0 (.integer (-7) .abstractInt) :
        Synth ChaCha Disguise) =
      disguise (⟨2, ⟨.perDepth [1, 3], .perDepth [6, 5, 0], .decaying 6 1, .perDepth [6, 5],
        .constant 3⟩, ⟨⟩⟩ : Palette NoUniforms) 0 (.integer (-7) .abstractInt) := by
  refine disguise_congr ?_
  rintro ty hty
  obtain rfl := Option.some.inj hty
  refine ⟨rfl, ?_, .inr (.inl rfl)⟩
  intro d _ hd s
  obtain rfl | rfl : d = 0 ∨ d = 1 := by
    change d < 2 at hd
    omega
  · cases s <;> rfl
  · cases s <;> rfl

end Palette

end Camouflage
