import Camouflage.Proofs.Requests

/-!
# Requests are runs on magnitudes

A request that synthesis takes draws nothing of its own: it is a run on one magnitude of the
domain of its type, behind which a sign is put in front of the expression if the number needs one
(`Palette.disguise_of_admits`). So what is said of the expression written for a magnitude, over any
uniforms, holds of what a request gives. At the depth limit nothing is drawn at all.
-/

namespace Camouflage

open Synth

/-- The literal of a magnitude is one literal, perhaps with a sign or a conversion. -/
theorem Synthesizer.isLoneLiteral_of_enter {via : Synthesizer} {ty : Scalar} {n : UInt32}
    {literal : Expr} (h : via.enter ty n = .ok literal) : literal.isLoneLiteral = true :=
  Literal.isLoneLiteral_of_writeMagnitude (enter_eq_ok_iff.1 h).2.2

/-! ## Numbers that are asked for -/

namespace Scalar

variable {ty : Scalar} {n : Int}

/-- Whether a number is one that synthesis takes for a type. -/
def Admits (ty : Scalar) (n : Int) : Prop :=
  ty.Takes n ∨ (ty.isFloat = true ∧ 0 ≤ n ∧ n ≤ 2 ^ 24)

/-- Whether a number is written as its magnitude behind a sign. The least signed word is its own
negation and needs none. -/
def NeedsSign (ty : Scalar) (n : Int) : Prop :=
  n < 0 ∧ ¬ (ty = .i32 ∧ n = Int32.minValue.toInt)

instance : Decidable (ty.NeedsSign n) := inferInstanceAs (Decidable (_ ∧ _))

theorem not_needsSign_iff :
    ¬ ty.NeedsSign n ↔ 0 ≤ n ∨ (ty = .i32 ∧ n = Int32.minValue.toInt) := by
  rw [NeedsSign, not_and, not_not, ← Int.not_le, imp_iff_not_or, not_not]

/-- The magnitude of such a number is one of the domain of a synthesizer that handles the type. -/
theorem Admits.exists_magnitude (h : ty.Admits n) :
    ∃ (via : Synthesizer) (m : UInt32), via.handles ty = true ∧ m ≤ (via.domain ty).largest ∧
      m.toNat = n.natAbs := by
  rcases h with htakes | ⟨hfloat, hlow, hhigh⟩
  · have hle := Domain.le_largest (Synthesizer.domain_integer_ne ty) (.ofNat n.natAbs)
    exact ⟨.integer, _, htakes.1, hle, (magnitudeOf_ok htakes.natAbs_lt).2⟩
  · obtain ⟨hle, hnat⟩ := Palette.ofNat_le_preciseLimit hlow hhigh
    exact ⟨.float, _, hfloat, hle, by omega⟩

end Scalar

/-- What is asked for by a request that synthesis takes is a number it takes. -/
theorem Request.Admissible.exists_asksFor {ty : Scalar} {request : Request}
    (h : request.Admissible ty) : ∃ n, request.AsksFor ty n ∧ ty.Admits n := by
  cases h with
  | integer htakes => exact ⟨_, .integer htakes.1 rfl, .inl htakes⟩
  | integerLiteral hreads htakes => exact ⟨_, .literal hreads, .inl htakes⟩
  | floatLiteral hreads hfloat hlow hhigh => exact ⟨_, .literal hreads, .inr ⟨hfloat, hlow, hhigh⟩⟩

namespace Palette

variable {σ : Type} [WordSource σ] {J : Type} [Membership Uniform J] [ShaderJob J]
variable {palette : Palette J} {via : Synthesizer} {ty : Scalar} {depth : Nat}

/-- Whether a run is one on a magnitude of the domain of a type, with at most a sign put in
front of the expression. -/
def IsDressed (palette : Palette J) (depth : Nat) (ty : Scalar) (run : Synth σ Disguise) : Prop :=
  ∃ (via : Synthesizer) (n : UInt32) (dress : Disguise → Disguise),
    via.handles ty = true ∧ n ≤ (via.domain ty).largest ∧
    run = dress <$> palette.disguiseMagnitude via depth ty n ∧
    ∀ k, (dress k).rewritten = k.rewritten ∨ (dress k).rewritten = k.rewritten.neg

/-! ## Requests -/

/-- An integer that is taken passes the checks. What follows depends on whether its magnitude
needs a sign. -/
theorem disguiseInteger_of_takes {value : Int64} (htakes : ty.Takes value.toInt) (depth : Nat)
    {n : UInt32} (hn : n.toNat = value.toInt.natAbs) :
    (palette.disguiseInteger depth value ty : Synth σ Disguise) =
      if 0 ≤ value.toInt ∨ (ty = .i32 ∧ value.toInt = Int32.minValue.toInt) then
        palette.disguiseMagnitude .integer depth ty n
      else do
        let positive ← palette.disguiseMagnitude .integer depth ty n
        return ⟨← Literal.write value ty, positive.rewritten.neg⟩ := by
  have hmagnitude : magnitudeOf value.toInt = .ok n := by
    rw [(magnitudeOf_ok htakes.natAbs_lt).1, ← hn, UInt32.ofNat_toNat]
  obtain ⟨hinteger, hlow, hhigh⟩ := htakes
  have hsigned : ¬ (value.toInt < 0 ∧ ty = .u32) := by
    rintro ⟨hneg, rfl⟩
    exact absurd hlow (Int.not_le.2 hneg)
  unfold disguiseInteger
  dsimp only
  rw [hinteger, if_neg (by decide), if_neg hsigned, if_neg (by omega), hmagnitude]
  rfl

/-- A request for an integer that is taken is one for a word. -/
theorem exists_disguiseInteger_of_asksFor {request : Request} {n : Int} (h : request.AsksFor ty n)
    (htakes : ty.Takes n) (depth : Nat) :
    ∃ value : Int64, value.toInt = n ∧
      (palette.disguise depth request : Synth σ Disguise) = palette.disguiseInteger depth value ty := by
  cases h with
  | integer _ hvalue => exact ⟨_, hvalue, rfl⟩
  | literal hreads =>
    exact ⟨.ofInt n, htakes.toInt_ofInt, disguiseLiteral_of_takes htakes depth hreads⟩

/-- A request for an integer whose magnitude needs no sign is a run on the magnitude. -/
theorem disguise_of_asksFor {request : Request} {n : Int} (h : request.AsksFor ty n)
    (htakes : ty.Takes n) (hsign : 0 ≤ n ∨ (ty = .i32 ∧ n = Int32.minValue.toInt)) {m : UInt32}
    (hm : m.toNat = n.natAbs) :
    (palette.disguise depth request : Synth σ Disguise) =
      palette.disguiseMagnitude .integer depth ty m := by
  obtain ⟨value, rfl, hrun⟩ : ∃ value : Int64, value.toInt = n ∧
      (palette.disguise depth request : Synth σ Disguise) = palette.disguiseInteger depth value ty :=
    exists_disguiseInteger_of_asksFor h htakes depth
  rw [hrun, disguiseInteger_of_takes htakes depth hm, if_pos hsign]

theorem disguise_of_asksFor_whole {request : Request} {n : Int} (h : request.AsksFor ty n)
    (hfloat : ty.isFloat = true) (hlow : 0 ≤ n) (hhigh : n ≤ 2 ^ 24) :
    (palette.disguise depth request : Synth σ Disguise) =
      palette.disguiseMagnitude .float depth ty (.ofNat n.toNat) := by
  cases h with
  | integer hinteger _ => cases ty <;> cases hfloat <;> cases hinteger
  | literal hreads =>
    rw [disguise]
    exact disguiseLiteral_of_precise hfloat depth hreads hlow hhigh

/-- A request for a number that is admitted is a run on its magnitude, behind which a sign is put
in front of the expression if the number needs one. -/
theorem disguise_of_admits {request : Request} {n : Int} (h : request.AsksFor ty n)
    (hadmits : ty.Admits n) (hhandles : via.handles ty = true) {m : UInt32}
    (hm : m.toNat = n.natAbs) (depth : Nat) :
    ∃ dress : Disguise → Disguise,
      (palette.disguise depth request : Synth σ Disguise) =
        dress <$> palette.disguiseMagnitude via depth ty m ∧
      ∀ k, (dress k).rewritten = if ty.NeedsSign n then k.rewritten.neg else k.rewritten := by
  rcases hadmits with htakes | ⟨hfloat, hlow, hhigh⟩
  · obtain rfl := Synthesizer.eq_of_handles (Synthesizer.handles_of_isInteger htakes.1) hhandles
    by_cases hsign : ty.NeedsSign n
    · obtain ⟨value, rfl, hrun⟩ : ∃ value : Int64, value.toInt = n ∧
          (palette.disguise depth request : Synth σ Disguise) =
            palette.disguiseInteger depth value ty :=
        exists_disguiseInteger_of_asksFor h htakes depth
      obtain ⟨literal, -, hwrite, -⟩ := htakes.exists_write
      have hneg : ¬ (0 ≤ value.toInt ∨ (ty = .i32 ∧ value.toInt = Int32.minValue.toInt)) :=
        not_or.2 ⟨Int.not_le.2 hsign.1, hsign.2⟩
      refine ⟨fun positive => ⟨literal, positive.rewritten.neg⟩, ?_, fun k => (if_pos hsign).symm⟩
      rw [hrun, disguiseInteger_of_takes htakes depth hm, if_neg hneg, hwrite]
      rfl
    · refine ⟨id, ?_, fun k => (if_neg hsign).symm⟩
      rw [id_map]
      exact disguise_of_asksFor h htakes (Scalar.not_needsSign_iff.1 hsign) hm
  · obtain rfl := Synthesizer.eq_of_handles (Synthesizer.handles_of_isFloat hfloat) hhandles
    have hmagnitude : UInt32.ofNat n.toNat = m := by
      rw [← UInt32.toNat_inj, hm]
      have hnat := (ofNat_le_preciseLimit hlow hhigh).2
      omega
    have hsign : ¬ ty.NeedsSign n := fun hsign => Int.not_le.2 hsign.1 hlow
    refine ⟨id, ?_, fun k => (if_neg hsign).symm⟩
    rw [id_map, disguise_of_asksFor_whole h hfloat hlow hhigh, hmagnitude]

theorem isDressed_disguise {request : Request} (h : request.Admissible ty) (depth : Nat) :
    palette.IsDressed depth ty (palette.disguise depth request : Synth σ Disguise) := by
  obtain ⟨n, hasks, hadmits⟩ := h.exists_asksFor
  obtain ⟨via, m, hhandles, hle, hm⟩ := hadmits.exists_magnitude
  obtain ⟨dress, hrun, hdress⟩ : ∃ dress : Disguise → Disguise,
      (palette.disguise depth request : Synth σ Disguise) =
        dress <$> palette.disguiseMagnitude via depth ty m ∧
      ∀ k, (dress k).rewritten = if ty.NeedsSign n then k.rewritten.neg else k.rewritten :=
    disguise_of_admits hasks hadmits hhandles hm depth
  refine ⟨via, m, dress, hhandles, hle, hrun, fun k => ?_⟩
  rw [hdress]
  split
  · exact .inr rfl
  · exact .inl rfl

/-! ## What a request gives -/

/-- What is written for a magnitude is what its disguise is rewritten to. -/
theorem disguiseMagnitude_of_express (hhandles : via.handles ty = true) {n : UInt32}
    (hn : n ≤ (via.domain ty).largest) {post : Expr → Prop} {refused : Failure → Prop}
    (h : Ends (palette.express via ty (palette.maxDepth - depth) depth n : Synth σ Expr) post
      refused) :
    Ends (palette.disguiseMagnitude via depth ty n : Synth σ Disguise) (fun k => post k.rewritten)
      refused := by
  obtain ⟨literal, hliteral⟩ := Synthesizer.enter_ok hhandles hn
  unfold disguiseMagnitude
  rw [hliteral]
  exact Ends.bind_ok (h.bind fun _ hpost => Ends.pure hpost)


/-- The expression that a request gives was written for a magnitude, and may have a sign. -/
theorem exists_written_of_disguise {request : Request} (h : request.Admissible ty) {source : σ}
    {k : Disguise} (hrun : outcome (palette.disguise depth request) source = .ok k) :
    ∃ via n e, palette.Written via ty (palette.maxDepth - depth) depth n e ∧
      (k.rewritten = e ∨ k.rewritten = e.neg) := by
  obtain ⟨via, n, dress, hhandles, hn, heq, hdress⟩ :
      palette.IsDressed depth ty (palette.disguise depth request : Synth σ Disguise) :=
    isDressed_disguise h depth
  rw [heq] at hrun
  obtain ⟨positive, ⟨-, hwritten⟩, rfl⟩ :=
    ((disguiseMagnitude_ends hhandles depth hn).map dress).of_ok hrun
  exact ⟨via, n, positive.rewritten, hwritten, hdress positive⟩

/-! ## At the limit -/

theorem disguiseMagnitude_of_limit (hhandles : via.handles ty = true)
    (hlimit : palette.maxDepth ≤ depth) {n : UInt32} (hn : n ≤ (via.domain ty).largest) :
    ∃ literal, via.enter ty n = .ok literal ∧
      (palette.disguiseMagnitude via depth ty n : Synth σ Disguise) = pure ⟨literal, literal⟩ := by
  obtain ⟨literal, hliteral⟩ := Synthesizer.enter_ok hhandles hn
  refine ⟨literal, hliteral, ?_⟩
  unfold disguiseMagnitude
  rw [Nat.sub_eq_zero_of_le hlimit, express, hliteral]
  rfl

/-- At the depth limit a request gives a literal, behind a sign or not, without a draw. -/
theorem disguise_of_limit {request : Request} (h : request.Admissible ty)
    (hlimit : palette.maxDepth ≤ depth) :
    ∃ (via : Synthesizer) (n : UInt32) (literal : Expr) (k : Disguise),
      via.enter ty n = .ok literal ∧ (k.rewritten = literal ∨ k.rewritten = literal.neg) ∧
      (palette.disguise depth request : Synth σ Disguise) = pure k := by
  obtain ⟨via, n, dress, hhandles, hn, heq, hdress⟩ :
      palette.IsDressed depth ty (palette.disguise depth request : Synth σ Disguise) :=
    isDressed_disguise h depth
  obtain ⟨literal, hliteral, hrun⟩ :
      ∃ literal, via.enter ty n = .ok literal ∧
        (palette.disguiseMagnitude via depth ty n : Synth σ Disguise) = pure ⟨literal, literal⟩ :=
    disguiseMagnitude_of_limit hhandles hlimit hn
  refine ⟨via, n, literal, dress ⟨literal, literal⟩, hliteral, hdress _, ?_⟩
  rw [heq, hrun, map_pure]

end Palette

end Camouflage
