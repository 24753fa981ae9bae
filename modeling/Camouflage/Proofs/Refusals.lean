import Camouflage.Proofs.Requests

/-!
# When a request is refused

Of a request that synthesis takes, over uniforms whose contents it can use, only one thing
can be the matter: at some depth on the way down no strategy of the type has a weight. So a
request succeeds where every depth below the limit has one, and in any case at the limit.
-/

namespace Camouflage

open Synth

namespace Palette

variable {J : Type} [Membership Uniform J] {palette : Palette J} {ty : Scalar} {depth : Nat}

/-- What is written above the limit was written by a strategy. -/
theorem Written.exists_enabled {via : Synthesizer} {n : UInt32} {e : Expr}
    (h : palette.Written via ty (palette.maxDepth - depth) depth n e)
    (hdepth : depth < palette.maxDepth) : ∃ s, palette.Enabled ty depth s := by
  obtain ⟨levels, hlevels⟩ : ∃ levels, palette.maxDepth - depth = levels + 1 :=
    Nat.exists_eq_add_one.2 (Nat.sub_pos_of_lt hdepth)
  rw [hlevels] at h
  obtain ⟨_, s, -, henabled, -⟩ := h
  exact ⟨s, henabled⟩

theorem Disguised.exists_enabled {value : Int64} {k : Disguise}
    (h : palette.Disguised depth ty value k) (hdepth : depth < palette.maxDepth) :
    ∃ s, palette.Enabled ty depth s := by
  cases h with
  | magnitude _ _ _ hwritten => exact hwritten.exists_enabled hdepth
  | negation _ _ _ _ hwritten => exact hwritten.exists_enabled hdepth

/-- With uniforms whose contents can be used, a magnitude is refused for the weights only. -/
theorem Refused.noStrategy {via : Synthesizer} (hhandles : via.handles ty = true)
    (href : ∀ u ∈ palette.uniforms, u.reference.isReference = true)
    (hcontents : ∀ u ∈ palette.uniforms, ∃ v, u.contents = .ok v) {failure : Failure}
    (h : palette.Refused via ty (palette.maxDepth - depth) depth failure) :
    ∃ d, depth ≤ d ∧ d < palette.maxDepth ∧ failure = .noStrategy d ∧
      ∀ s, ¬ palette.Enabled ty d s := by
  rcases h with ⟨d, hlow, hhigh, hfailure, hnone⟩ | ⟨hconcrete, u, hu, herror⟩
  · exact ⟨d, hlow, by omega, hfailure, hnone⟩
  · obtain ⟨v, hv⟩ := hcontents u hu
    rw [Synthesizer.contents_error_of_anchor (href u hu) hconcrete hhandles herror] at hv
    cases hv

variable [ShaderJob J] {σ : Type} [WordSource σ]

theorem disguiseInteger_ends_of_takes (depth : Nat) {value : Int64}
    (htakes : ty.Takes value.toInt) :
    Ends (palette.disguiseInteger depth value ty : Synth σ Disguise)
      (fun _ => depth < palette.maxDepth → ∃ s, palette.Enabled ty depth s)
      (palette.Refused .integer ty (palette.maxDepth - depth) depth) := by
  refine (disguiseInteger_ends depth value).mono ?_ ?_
  · rintro k ⟨-, hdisguised⟩
    exact hdisguised.exists_enabled
  · rintro failure (⟨hrejected, -⟩ | ⟨-, hrefused⟩)
    · exact absurd htakes hrejected
    · exact hrefused

/-- Every run on a request of the type goes through a strategy, if it is above the limit, or
is refused the magnitude by the synthesizer of the type. -/
theorem disguise_ends (depth : Nat) {request : Request} (h : request.Admissible ty) :
    Ends (palette.disguise depth request : Synth σ Disguise)
      (fun _ => depth < palette.maxDepth → ∃ s, palette.Enabled ty depth s)
      (fun failure => ∃ via : Synthesizer, via.handles ty = true ∧
        palette.Refused via ty (palette.maxDepth - depth) depth failure) := by
  cases h with
  | integer htakes =>
    exact (disguiseInteger_ends_of_takes depth htakes).mono (fun _ h => h)
      fun _ hrefused => ⟨.integer, htakes.1, hrefused⟩
  | @integerLiteral e n hreads htakes =>
    have hword : ty.Takes (Int64.ofInt n).toInt := by rwa [htakes.toInt_ofInt]
    rw [disguise, disguiseLiteral_of_takes htakes depth hreads]
    exact (disguiseInteger_ends_of_takes depth hword).mono (fun _ h => h)
      fun _ hrefused => ⟨.integer, htakes.1, hrefused⟩
  | @floatLiteral e n hreads hfloat hlow hhigh =>
    have hhandles := Synthesizer.handles_of_isFloat hfloat
    rw [disguise, disguiseLiteral_of_precise hfloat depth hreads hlow hhigh]
    refine (disguiseMagnitude_ends hhandles depth (ofNat_le_preciseLimit hlow hhigh).1).mono ?_
      fun _ hrefused => ⟨.float, hhandles, hrefused⟩
    rintro k ⟨-, hwritten⟩
    exact hwritten.exists_enabled

/-- A request of the type fails only for the weights: at some depth from the first on and
below the limit, no strategy of the type has one. So it succeeds if there is no such
depth, as there is none at the limit, and it fails if the first depth is one. -/
theorem fails_only_without_strategy {request : Request} (h : request.Admissible ty)
    (huniforms : ∀ u ∈ palette.uniforms,
      u.reference.isReference = true ∧ ∃ v, u.contents = .ok v) (depth : Nat) (source : σ) :
    (∀ failure, outcome (palette.disguise depth request) source = .error failure →
      ∃ d, depth ≤ d ∧ d < palette.maxDepth ∧ failure = .noStrategy d ∧
        ∀ s, ¬ palette.Enabled ty d s) ∧
    ((∀ d, depth ≤ d → d < palette.maxDepth → ∃ s, palette.Enabled ty d s) →
      ∃ k, outcome (palette.disguise depth request) source = .ok k) ∧
    (palette.maxDepth ≤ depth → ∃ k, outcome (palette.disguise depth request) source = .ok k) ∧
    (depth < palette.maxDepth → (∀ s, ¬ palette.Enabled ty depth s) →
      ∃ failure, outcome (palette.disguise depth request) source = .error failure) := by
  have href : ∀ u ∈ palette.uniforms, u.reference.isReference = true :=
    fun u hu => (huniforms u hu).1
  have hends : Ends (palette.disguise depth request : Synth σ Disguise) _ _ := disguise_ends depth h
  cases hout : outcome (palette.disguise depth request) source with
  | ok k =>
    refine ⟨?_, fun _ => ⟨k, rfl⟩, fun _ => ⟨k, rfl⟩, ?_⟩
    · intro failure hfails
      cases hfails
    · intro hdepth hnone
      obtain ⟨s, hs⟩ := hends.of_ok hout hdepth
      exact absurd hs (hnone s)
  | error failure =>
    obtain ⟨via, hhandles, hrefused⟩ := hends.of_error hout
    obtain ⟨d, hlow, hhigh, rfl, hnone⟩ :=
      hrefused.noStrategy hhandles href fun u hu => (huniforms u hu).2
    refine ⟨?_, fun hsome => ?_, fun hlimit => by omega, fun _ _ => ⟨_, rfl⟩⟩
    · intro failure hfails
      rw [← Except.error.inj hfails]
      exact ⟨d, hlow, hhigh, rfl, hnone⟩
    · obtain ⟨s, hs⟩ := hsome d hlow hhigh
      exact absurd hs (hnone s)

/-- Derives everything from a uniform. -/
def derived : Palette := ⟨1, .only .uniform, [.sample]⟩

/-- That succeeds for a type that a uniform can have, and fails at once for an abstract
one, which no uniform can help with. -/
theorem fails_only_without_strategy_derived :
    (∃ k, outcome (derived.disguise 0 (.literal (.floatLiteral "12.0") (.scalar .f32)))
      (ChaCha.ofSeed 0) = .ok k) ∧
    ∃ d, 0 ≤ d ∧ d < 1 ∧ (∀ s, ¬ derived.Enabled .abstractInt d s) ∧
      outcome (derived.disguise 0 (.integer 7 .abstractInt)) (ChaCha.ofSeed 0) =
        .error (.noStrategy d) := by
  have huniforms : ∀ u ∈ derived.uniforms,
      u.reference.isReference = true ∧ ∃ v, u.contents = .ok v := by
    intro u hu
    rw [List.mem_singleton.1 hu]
    exact ⟨rfl, .f32 (.ofQuotient true (5 * Format.single.one) 2), by decide +kernel⟩
  have hreads : Literal.ReadsAs (.floatLiteral "12.0") 12 :=
    ⟨.ofNat 12, by decide +kernel, by decide +kernel⟩
  have hfloat : (Request.literal (.floatLiteral "12.0") (.scalar .f32)).Admissible .f32 :=
    .floatLiteral hreads rfl (by decide) (by decide)
  have hinteger : (Request.integer 7 .abstractInt).Admissible .abstractInt :=
    .integer ⟨rfl, by decide, by decide⟩
  have huniform : ∀ d, derived.Enabled .f32 d .uniform := by
    refine fun d => ⟨by decide, ?_⟩
    show (1 : UInt32) ≠ 0
    decide
  have hnone : ∀ s, ¬ derived.Enabled .abstractInt 0 s := by
    intro s
    cases s with
    | uniform => exact fun henabled => henabled.1 rfl rfl
    | _ => exact fun henabled => henabled.2 rfl
  constructor
  · exact (fails_only_without_strategy hfloat huniforms 0 (ChaCha.ofSeed 0)).2.1
      fun d _ _ => ⟨.uniform, huniform d⟩
  · obtain ⟨hfails, -, -, hstuck⟩ :=
      fails_only_without_strategy hinteger huniforms 0 (ChaCha.ofSeed 0)
    obtain ⟨failure, hfailure⟩ := hstuck (by decide) hnone
    obtain ⟨d, hlow, hhigh, rfl, hnone⟩ := hfails failure hfailure
    exact ⟨d, hlow, hhigh, hnone, hfailure⟩

end Palette

end Camouflage
