import Camouflage.Proofs.Forms

/-!
# What synthesis writes

`Palette.Written` follows the levels: with none left the literal, else a form of a strategy
that can be chosen at the depth, over what may be written one level further down. It is
all that later properties of the output look at, since `Palette.express_ends` shows that
every run ends in it or is refused for one of two reasons (`Palette.Refused`).
-/

namespace Camouflage

/-! ## Literals of a synthesizer -/

namespace Synthesizer

variable {via : Synthesizer} {ty : Scalar} {n : UInt32} {literal : Expr}

/-- What passes the check is a magnitude of a type that the synthesizer handles. -/
theorem check_eq_ok_iff :
    via.check ty n = .ok () ↔ via.handles ty = true ∧ n ≤ (via.domain ty).largest := by
  cases via with
  | integer =>
    have hle := Domain.le_largest (domain_integer_ne ty) n
    cases hinteger : ty.isInteger with
    | true => simp [check, handles, hinteger, hle]
    | false => simp [check, handles, hinteger]
  | float =>
    cases hfloat : ty.isFloat with
    | true => simp [check, handles, hfloat, domain_float, Domain.largest]
    | false => simp [check, handles, hfloat]

theorem enter_eq_ok_iff :
    via.enter ty n = .ok literal ↔
      via.handles ty = true ∧ n ≤ (via.domain ty).largest ∧
        Literal.writeMagnitude n ty = .ok literal := by
  constructor
  · intro h
    obtain ⟨_, hcheck, hwrite⟩ := exists_of_bind_eq_ok h
    obtain ⟨hhandles, hn⟩ := check_eq_ok_iff.1 hcheck
    exact ⟨hhandles, hn, hwrite⟩
  · rintro ⟨hhandles, hn, hwrite⟩
    rw [enter, check_eq_ok_iff.2 ⟨hhandles, hn⟩]
    exact hwrite

/-- A type that the synthesizer is not made for is refused whatever the magnitude is. -/
theorem enter_of_not_handles (hhandles : via.handles ty = false) (n : UInt32) :
    via.enter ty n = .error (.unreachableType ty) := by
  have hcheck : via.check ty n = .error (.unreachableType ty) := by
    cases via with
    | integer =>
      have hinteger : ty.isInteger = false := hhandles
      simp [check, hinteger]
    | float =>
      have hfloat : ty.isFloat = false := hhandles
      simp [check, hfloat]
  rw [enter, hcheck]
  rfl

/-- Of the types that are handled only floats have magnitudes that are too large. -/
theorem enter_of_largest_lt (hhandles : via.handles ty = true) (hn : (via.domain ty).largest < n) :
    via = .float ∧ via.enter ty n = .error (.internal .floatTooLarge) := by
  cases via with
  | integer =>
    have hle := Domain.le_largest (domain_integer_ne ty) n
    exact absurd hle (UInt32.not_le.2 hn)
  | float =>
    have hfloat : ty.isFloat = true := hhandles
    have hlimit : preciseLimit < n := hn
    refine ⟨rfl, ?_⟩
    simp [enter, check, hfloat, hlimit, bind, Except.bind]

theorem exists_ofMagnitude? (hhandles : via.handles ty = true) (n : UInt32) :
    ∃ v, Value.ofMagnitude? n ty = some v := by
  cases ty with
  | bool => cases via <;> cases hhandles
  | _ => exact ⟨_, rfl⟩

/-- No type is handled by both synthesizers. -/
theorem eq_of_handles {via' : Synthesizer} (h : via.handles ty = true)
    (h' : via'.handles ty = true) : via = via' := by
  cases via with
  | integer =>
    cases via' with
    | integer => rfl
    | float => cases ty <;> cases h <;> cases h'
  | float =>
    cases via' with
    | integer => cases ty <;> cases h <;> cases h'
    | float => rfl

theorem toNat_le_of_isFloat (hhandles : via.handles ty = true) (hn : n ≤ (via.domain ty).largest)
    (hfloat : ty.isFloat = true) : n.toNat ≤ 2 ^ 24 := by
  obtain rfl : via = float := eq_of_handles hhandles hfloat
  exact UInt32.le_iff_toNat_le.1 hn

/-- A magnitude of the domain has a literal. -/
theorem enter_ok (hhandles : via.handles ty = true) (hn : n ≤ (via.domain ty).largest) :
    ∃ literal, via.enter ty n = .ok literal := by
  obtain ⟨v, hv⟩ := exists_ofMagnitude? hhandles n
  obtain ⟨literal, hwrite, -⟩ := Literal.eval_writeMagnitude hv (toNat_le_of_isFloat hhandles hn)
  exact ⟨literal, enter_eq_ok_iff.2 ⟨hhandles, hn, hwrite⟩⟩

/-- The literal is worth the magnitude under any bindings. -/
theorem eval_of_enter (h : via.enter ty n = .ok literal) :
    ∃ v, Value.ofMagnitude? n ty = some v ∧ ∀ b, literal.eval b = .ok v := by
  obtain ⟨hhandles, hn, hliteral⟩ := enter_eq_ok_iff.1 h
  obtain ⟨v, hv⟩ := exists_ofMagnitude? hhandles n
  obtain ⟨e, hwrite, heval⟩ := Literal.eval_writeMagnitude hv (toNat_le_of_isFloat hhandles hn)
  rw [hliteral] at hwrite
  obtain rfl := Except.ok.inj hwrite
  exact ⟨v, hv, heval⟩

end Synthesizer

namespace Palette

open Synth

/-! ## What can be chosen -/

variable {J : Type} {palette : Palette J} {ty : Scalar}

/-- Whether a strategy can be chosen for a type at a depth. -/
def Enabled (palette : Palette J) (ty : Scalar) (depth : Nat) (s : Strategy) : Prop :=
  (ty.isAbstract = true → s ≠ .uniform) ∧ palette.weights.weight s depth ≠ 0

/-- Only for a concrete type can the strategy for uniforms be chosen. -/
theorem Enabled.isAbstract_eq_false {depth : Nat} (h : palette.Enabled ty depth .uniform) :
    ty.isAbstract = false :=
  Bool.eq_false_iff.2 fun habstract => h.1 habstract rfl

theorem mem_candidates {depth : Nat} {s : Strategy} {weight : UInt32} :
    (s, weight) ∈ palette.candidates ty depth ↔
      (ty.isAbstract = true → s ≠ .uniform) ∧ weight = palette.weights.weight s depth := by
  simp only [candidates, List.mem_map, List.mem_filter, Prod.mk.injEq]
  constructor
  · rintro ⟨s, ⟨-, husable⟩, rfl, rfl⟩
    refine ⟨?_, rfl⟩
    rintro habstract rfl
    simp [habstract] at husable
  · rintro ⟨husable, rfl⟩
    refine ⟨s, ⟨Strategy.mem_all s, ?_⟩, rfl, rfl⟩
    by_cases habstract : ty.isAbstract = true
    · simp [husable habstract]
    · simp [habstract]

theorem length_candidates (depth : Nat) : (palette.candidates ty depth).length ≤ 5 := by
  rw [candidates, List.length_map]
  exact List.length_filter_le _ Strategy.all

/-- What is chosen can be chosen, and nothing can be if nothing is. -/
theorem choose_candidates {σ : Type} [WordSource σ] (depth : Nat) (source : σ) :
    match ((Choice.choose (palette.candidates ty depth)).run source).1 with
    | some s => palette.Enabled ty depth s
    | none => ∀ s, ¬ palette.Enabled ty depth s := by
  cases hchosen : ((Choice.choose (palette.candidates ty depth)).run source).1 with
  | some s =>
    obtain ⟨weight, hweight, hmem⟩ := Choice.mem_of_choose hchosen
    obtain ⟨husable, rfl⟩ := mem_candidates.1 hmem
    exact ⟨husable, hweight⟩
  | none =>
    intro s hs
    have hfew : (palette.candidates ty depth).length < 2 ^ 32 :=
      Nat.lt_of_le_of_lt (length_candidates depth) (by decide)
    exact hs.2 (Choice.eq_zero_of_choose_eq_none hfew hchosen (mem_candidates.2 ⟨hs.1, rfl⟩))

variable {σ : Type} [WordSource σ]

theorem choose_ends (depth : Nat) {refused : Failure → Prop} :
    Ends (draw (Choice.choose (palette.candidates ty depth)) : Synth σ (Option Strategy))
      (fun chosen => match chosen with
        | some s => palette.Enabled ty depth s
        | none => ∀ s, ¬ palette.Enabled ty depth s) refused :=
  Ends.draw (choose_candidates depth)

/-! ## What can be written -/

variable [Membership Uniform J]

/-- What may be written for a magnitude with so many levels left, at a depth. -/
def Written (palette : Palette J) (via : Synthesizer) (ty : Scalar) :
    (levels depth : Nat) → UInt32 → Expr → Prop
  | 0, _, n, e => via.enter ty n = .ok e
  | levels + 1, depth, n, e =>
    ∃ literal s, via.enter ty n = .ok literal ∧ palette.Enabled ty depth s ∧
      Strategy.Form via palette.uniforms ty (palette.Written via ty levels (depth + 1)) literal s
        n e

/-- Why a magnitude of the domain may not be written: at some depth nothing can be chosen,
or a uniform has no anchor. -/
def Refused (palette : Palette J) (via : Synthesizer) (ty : Scalar) (levels depth : Nat)
    (failure : Failure) : Prop :=
  (∃ d, depth ≤ d ∧ d < depth + levels ∧ failure = .noStrategy d ∧
    ∀ s, ¬ palette.Enabled ty d s) ∨
  (ty.isAbstract = false ∧ ∃ u ∈ palette.uniforms, via.anchor u ty = .error failure)

variable [ShaderJob J] {via : Synthesizer}

/-- One level of synthesis ends in a form of a strategy that can be chosen, whatever the level
below may end in. -/
theorem express_succ_ends {operand : UInt32 → Expr → Prop} {refused : Failure → Prop}
    {levels depth : Nat} {n : UInt32} {literal : Expr} (hliteral : via.enter ty n = .ok literal)
    (hdeeper : ∀ m ≤ (via.domain ty).largest,
      Ends (palette.express via ty levels (depth + 1) m : Synth σ Expr) (operand m) refused)
    (hnone : (∀ s, ¬ palette.Enabled ty depth s) → refused (.noStrategy depth))
    (hrefused : palette.Enabled ty depth .uniform → ∀ u ∈ palette.uniforms, ∀ failure,
      via.anchor u ty = .error failure → refused failure) :
    Ends (palette.express via ty (levels + 1) depth n : Synth σ Expr)
      (fun e => ∃ s, palette.Enabled ty depth s ∧
        Strategy.Form via palette.uniforms ty operand literal s n e) refused := by
  have hn := (Synthesizer.enter_eq_ok_iff.1 hliteral).2.1
  rw [express_succ, hliteral]
  refine Ends.bind_ok ((choose_ends depth).bind ?_)
  intro chosen hspec
  cases chosen with
  | none => exact Ends.throw (hnone hspec)
  | some s =>
    refine (s.write_ends hdeeper hn ?_).mono (fun e hform => ⟨s, hspec, hform⟩) (fun _ h => h)
    rintro rfl
    exact hrefused hspec

/-- What synthesis ends in may be written; none of its checks fails. It is refused only where
nothing can be chosen, or where a uniform that can be chosen has no anchor. -/
theorem express_written_or (hhandles : via.handles ty = true) {refused : Failure → Prop}
    {levels depth : Nat}
    (hnone : ∀ d, depth ≤ d → d < depth + levels → (∀ s, ¬ palette.Enabled ty d s) →
      refused (.noStrategy d))
    (hrefused : ∀ d, depth ≤ d → d < depth + levels → palette.Enabled ty d .uniform →
      ∀ u ∈ palette.uniforms, ∀ failure, via.anchor u ty = .error failure → refused failure)
    {n : UInt32} (hn : n ≤ (via.domain ty).largest) :
    Ends (palette.express via ty levels depth n : Synth σ Expr)
      (palette.Written via ty levels depth n) refused := by
  induction levels generalizing depth n with
  | zero =>
    obtain ⟨literal, hliteral⟩ := Synthesizer.enter_ok hhandles hn
    rw [express, hliteral]
    exact Ends.pure hliteral
  | succ levels ih =>
    obtain ⟨literal, hliteral⟩ := Synthesizer.enter_ok hhandles hn
    have hdeeper : ∀ m ≤ (via.domain ty).largest,
        Ends (palette.express via ty levels (depth + 1) m : Synth σ Expr)
          (palette.Written via ty levels (depth + 1) m) refused := fun m hm =>
      ih (fun d hlow hhigh => hnone d (by omega) (by omega))
        (fun d hlow hhigh => hrefused d (by omega) (by omega)) hm
    refine (express_succ_ends hliteral hdeeper (hnone depth (by omega) (by omega))
      (hrefused depth (by omega) (by omega))).mono ?_ fun _ h => h
    rintro e ⟨s, henabled, hform⟩
    exact ⟨literal, s, hliteral, henabled, hform⟩

/-- Synthesis of a magnitude of the domain ends in what may be written for it or in one of
the two refusals. -/
theorem express_ends (hhandles : via.handles ty = true) (levels depth : Nat) {n : UInt32}
    (hn : n ≤ (via.domain ty).largest) :
    Ends (palette.express via ty levels depth n : Synth σ Expr)
      (palette.Written via ty levels depth n) (palette.Refused via ty levels depth) := by
  refine express_written_or hhandles ?_ ?_ hn
  · intro d hlow hhigh hnone
    exact .inl ⟨d, hlow, hhigh, rfl, hnone⟩
  · intro d _ _ henabled u hu failure herror
    exact .inr ⟨henabled.isAbstract_eq_false, u, hu, herror⟩

end Palette

end Camouflage
