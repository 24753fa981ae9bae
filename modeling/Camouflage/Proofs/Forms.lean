import Camouflage.Proofs.Anchors
import Camouflage.Proofs.Outcome
import Camouflage.Proofs.WrappedQuotient

/-!
# The forms that strategies write

A strategy draws its operands and hands them to the level below. `Strategy.Form` says what
can come of it, with what was drawn as arguments and what the level below may write as a
parameter, and `Strategy.write_ends` that nothing else does: the ranges of the draws keep
every operand within the domain, and with that the checks on them hold.
-/

namespace Camouflage

/-- A binary operation with its operands exchanged or not. -/
def Expr.ordered (exchanged : Bool) (op : BinaryOp) (lhs rhs : Expr) : Expr :=
  if exchanged then .binary op rhs lhs else .binary op lhs rhs

namespace Strategy

open Synth

/-- What a strategy may write for a value, where `operand` says what may be written for
each of the magnitudes that it leaves to the level below. -/
inductive Form {J : Type} [Membership Uniform J] (via : Synthesizer) (uniforms : J) (ty : Scalar)
    (operand : UInt32 → Expr → Prop) (literal : Expr) : Strategy → UInt32 → Expr → Prop
  | plain {value} : Form via uniforms ty operand literal .plain value literal
  | sum {value part lhs rhs} (exchanged : Bool) :
      (via.domain ty ≠ .wrapping → part ≤ value) → operand part lhs → operand (value - part) rhs →
      Form via uniforms ty operand literal .sum value (Expr.ordered exchanged .add lhs rhs)
  | difference {value part lhs rhs} :
      (via.domain ty ≠ .wrapping → value.toNat + part.toNat ≤ (via.domain ty).largest.toNat) →
      operand (value + part) lhs → operand part rhs →
      Form via uniforms ty operand literal .difference value (.binary .subtract lhs rhs)
  | wrapped {value divisor quotient lhs rhs} (exchanged : Bool) :
      via.domain ty = .wrapping → divisor * quotient = value → operand divisor lhs →
      operand quotient rhs →
      Form via uniforms ty operand literal .product value
        (Expr.ordered exchanged .multiply lhs rhs)
  | factor {value divisor lhs rhs} (exchanged : Bool) :
      divisor ≠ 0 → value % divisor = 0 → operand divisor lhs → operand (value / divisor) rhs →
      Form via uniforms ty operand literal .product value
        (Expr.ordered exchanged .multiply lhs rhs)
  | remainder {value divisor lhs rhs rest} (exchanged exchanged' : Bool) :
      divisor ≠ 0 → operand divisor lhs → operand (value / divisor) rhs →
      operand (value % divisor) rest →
      Form via uniforms ty operand literal .product value
        (Expr.ordered exchanged' .add (Expr.ordered exchanged .multiply lhs rhs) rest)
  | noUniform {value} : Form via uniforms ty operand literal .uniform value literal
  | anchor {value u anchor} :
      u ∈ uniforms → via.anchor u ty = .ok anchor → anchor.magnitude = value →
      Form via uniforms ty operand literal .uniform value anchor.expr
  | above {value u anchor rest} :
      u ∈ uniforms → via.anchor u ty = .ok anchor → value < anchor.magnitude →
      operand (anchor.magnitude - value) rest →
      Form via uniforms ty operand literal .uniform value (.binary .subtract anchor.expr rest)
  | below {value u anchor rest} (exchanged : Bool) :
      u ∈ uniforms → via.anchor u ty = .ok anchor → anchor.magnitude < value →
      operand (value - anchor.magnitude) rest →
      Form via uniforms ty operand literal .uniform value
        (Expr.ordered exchanged .add anchor.expr rest)

variable {σ : Type} [WordSource σ]

/-- Either side of a coin is possible. -/
theorem coin_ends {refused : Failure → Prop} :
    Ends (draw Random.coin : Synth σ Bool) (fun _ => True) refused :=
  Ends.draw fun _ => trivial

theorem inAnyOrder_ends {op : BinaryOp} {lhs rhs : Expr} {post : Expr → Prop}
    {refused : Failure → Prop} (h : ∀ exchanged, post (Expr.ordered exchanged op lhs rhs)) :
    Ends (inAnyOrder op lhs rhs : Synth σ Expr) post refused := by
  refine coin_ends.bind fun exchanged _ => ?_
  cases exchanged with
  | true => exact Ends.pure (h true)
  | false => exact Ends.pure (h false)

theorem toNat_max_half (n : UInt32) : (max 1 (n / 2)).toNat = max 1 (n.toNat / 2) := by
  show (if 1 ≤ n / 2 then n / 2 else 1).toNat = _
  have hhalf : (n / 2).toNat = n.toNat / 2 := UInt32.toNat_div n 2
  split
  · rename_i hle
    rw [UInt32.le_iff_toNat_le, hhalf] at hle
    rw [hhalf]
    exact (Nat.max_eq_right hle).symm
  · rename_i hle
    rw [UInt32.le_iff_toNat_le, hhalf] at hle
    exact (Nat.max_eq_left (Nat.le_of_not_le hle)).symm

theorem ne_zero_of_one_le {n : UInt32} (h : 1 ≤ n) : n ≠ 0 := by
  rintro rfl
  exact absurd h (by decide)

/-- A divisor up to half of a number leaves a quotient and a remainder within the domain. -/
theorem factor_le_largest {domain : Domain} {value divisor : UInt32}
    (hvalue : value ≤ domain.largest) (hhalf : divisor ≤ max 1 (value / 2)) :
    divisor ≤ domain.largest ∧ value / divisor ≤ domain.largest ∧
      value % divisor ≤ domain.largest := by
  have hone : 1 ≤ domain.largest.toNat := by cases domain <;> decide
  have hquotient := Nat.div_le_self value.toNat divisor.toNat
  have hremainder := Nat.mod_le value.toNat divisor.toNat
  simp only [UInt32.le_iff_toNat_le, UInt32.toNat_div, UInt32.toNat_mod, toNat_max_half]
    at hvalue hhalf ⊢
  omega

/-! ## Runs of a strategy -/

variable {J : Type} [Membership Uniform J] {via : Synthesizer} {uniforms : J} {ty : Scalar}
variable {operand : UInt32 → Expr → Prop} {literal : Expr} {refused : Failure → Prop}
variable {deeper : UInt32 → Synth σ Expr} {value : UInt32}
variable (hdeeper : ∀ n ≤ (via.domain ty).largest, Ends (deeper n) (operand n) refused)
variable (hvalue : value ≤ (via.domain ty).largest)
include hdeeper hvalue

theorem writeSum_ends :
    Ends (writeSum (via.domain ty) deeper value) (Form via uniforms ty operand literal .sum value)
      refused := by
  unfold writeSum
  have hpart : Ends (draw (Random.between 0
      (if via.domain ty = .wrapping then Domain.freeLimit else value)) : Synth σ UInt32)
      (fun part => via.domain ty ≠ .wrapping → part ≤ value) refused := by
    refine Ends.draw ?_
    intro source hdomain
    rw [if_neg hdomain]
    exact (Random.between_mem UInt32.zero_le source).2
  refine hpart.bind ?_
  intro part hle
  -- only where the domain wraps can the part exceed the value, and there every word will do
  have hbound : part ≤ (via.domain ty).largest ∧ value - part ≤ (via.domain ty).largest := by
    by_cases hdomain : via.domain ty = .wrapping
    · rw [hdomain]
      exact ⟨Domain.le_largest (by decide) _, Domain.le_largest (by decide) _⟩
    · have hle := hle hdomain
      have hsub := UInt32.toNat_sub_of_le _ _ hle
      simp only [UInt32.le_iff_toNat_le] at hle hvalue ⊢
      omega
  refine (hdeeper part hbound.1).bind ?_
  intro lhs hlhs
  refine (hdeeper (value - part) hbound.2).bind ?_
  intro rhs hrhs
  exact inAnyOrder_ends fun exchanged => .sum exchanged hle hlhs hrhs

theorem writeDifference_ends :
    Ends (writeDifference (via.domain ty) deeper value)
      (Form via uniforms ty operand literal .difference value) refused := by
  unfold writeDifference
  have hpart : Ends (draw (Random.between 0 (if via.domain ty = .wrapping then Domain.freeLimit
        else (via.domain ty).largest - value)) : Synth σ UInt32)
      (fun part => via.domain ty ≠ .wrapping →
        value.toNat + part.toNat ≤ (via.domain ty).largest.toNat) refused := by
    refine Ends.draw ?_
    intro source hdomain
    rw [if_neg hdomain]
    have hle :=
      (Random.between_mem UInt32.zero_le source : _ ∧ _ ≤ (via.domain ty).largest - value).2
    have hsub := UInt32.toNat_sub_of_le _ _ hvalue
    simp only [UInt32.le_iff_toNat_le] at hle hvalue
    omega
  refine hpart.bind ?_
  intro part hle
  -- the two checks repeat what the range of the part ensures
  have hexact : ¬ (via.domain ty = .exact ∧
      (via.domain ty).largest.toNat < value.toNat + part.toNat) := by
    rintro ⟨hdomain, hlt⟩
    exact Nat.not_lt.2 (hle (by rw [hdomain]; decide)) hlt
  have hprecise : ¬ (via.domain ty = .precise ∧
      (via.domain ty).largest.toNat < value.toNat + part.toNat) := by
    rintro ⟨hdomain, hlt⟩
    exact Nat.not_lt.2 (hle (by rw [hdomain]; decide)) hlt
  dsimp only
  rw [if_neg hexact, if_neg hprecise]
  have hbound : part ≤ (via.domain ty).largest ∧ value + part ≤ (via.domain ty).largest := by
    by_cases hdomain : via.domain ty = .wrapping
    · rw [hdomain]
      exact ⟨Domain.le_largest (by decide) _, Domain.le_largest (by decide) _⟩
    · have hle := hle hdomain
      have hadd := UInt32.toNat_add value part
      have hlt := (via.domain ty).largest.toNat_lt
      rw [Nat.mod_eq_of_lt (by omega)] at hadd
      simp only [UInt32.le_iff_toNat_le]
      omega
  refine (hdeeper part hbound.1).bind ?_
  intro subtrahend hsubtrahend
  refine (hdeeper (value + part) hbound.2).bind ?_
  intro minuend hminuend
  exact Ends.pure (.difference hle hminuend hsubtrahend)

theorem writeFactor_ends :
    Ends (writeFactor deeper value) (Form via uniforms ty operand literal .product value)
      refused := by
  unfold writeFactor
  have hdrawn : Ends (draw (Random.between 1 (max 1 (value / 2))) : Synth σ UInt32)
      (fun divisor => 1 ≤ divisor ∧ divisor ≤ max 1 (value / 2)) refused :=
    Ends.draw fun _ => Random.between_mem
      (UInt32.le_iff_toNat_le.2 (toNat_max_half value ▸ Nat.le_max_left ..)) _
  refine hdrawn.bind ?_
  rintro divisor ⟨hpos, hhalf⟩
  have hne := ne_zero_of_one_le hpos
  obtain ⟨hdivisor, hquotient, hremainder⟩ := factor_le_largest hvalue hhalf
  refine (hdeeper divisor hdivisor).bind ?_
  intro lhs hlhs
  refine (hdeeper (value / divisor) hquotient).bind ?_
  intro rhs hrhs
  have hproduct : Ends (inAnyOrder .multiply lhs rhs : Synth σ Expr)
      (fun product => ∃ exchanged, product = Expr.ordered exchanged .multiply lhs rhs) refused :=
    inAnyOrder_ends fun exchanged => ⟨exchanged, rfl⟩
  refine hproduct.bind ?_
  rintro product ⟨exchanged, rfl⟩
  have hmore : Ends (do
      let rest ← deeper (value % divisor)
      inAnyOrder .add (Expr.ordered exchanged .multiply lhs rhs) rest)
      (Form via uniforms ty operand literal .product value) refused := by
    refine (hdeeper (value % divisor) hremainder).bind ?_
    intro rest hrest
    exact inAnyOrder_ends fun exchanged' => .remainder exchanged exchanged' hne hlhs hrhs hrest
  -- a remainder that is not zero must be added, and any other may be left out
  refine Ends.ite (fun _ => hmore) fun hzero => coin_ends.bind fun more _ => ?_
  exact Ends.ite (fun _ => hmore) fun _ =>
    Ends.pure (.factor exchanged hne (Decidable.not_not.1 hzero) hlhs hrhs)

theorem writeProduct_ends :
    Ends (writeProduct (via.domain ty) deeper value)
      (Form via uniforms ty operand literal .product value) refused := by
  have hfactor : Ends (writeFactor deeper value)
      (Form via uniforms ty operand literal .product value) refused :=
    writeFactor_ends hdeeper hvalue
  unfold writeProduct
  -- three ways lead to a factor: another domain, the coin, and no quotient
  refine Ends.ite (fun hwrapping => coin_ends.bind fun wraps _ => ?_) fun _ => hfactor
  refine Ends.ite (fun _ => ?_) fun _ => hfactor
  have hdrawn : Ends (draw (Random.between 1 Domain.freeLimit) : Synth σ UInt32)
      (fun divisor => 1 ≤ divisor) refused :=
    Ends.draw fun _ => (Random.between_mem (by decide) _).1
  refine hdrawn.bind ?_
  intro divisor hpos
  have hne := ne_zero_of_one_le hpos
  obtain ⟨result, hresult, hspec⟩ := Wrapped.quotient?_spec value hne
  have hquotient : Ends (liftM (Wrapped.quotient? value divisor) : Synth σ (Option UInt32))
      (fun found => found = result) refused := by
    rw [hresult]
    exact Ends.pure rfl
  refine hquotient.bind ?_
  intro found hfound
  rw [hfound]
  cases result with
  | none => exact hfactor
  | some quotient =>
    rw [hwrapping] at hdeeper
    refine (hdeeper divisor (Domain.le_largest (by decide) _)).bind ?_
    intro lhs hlhs
    refine (hdeeper quotient (Domain.le_largest (by decide) _)).bind ?_
    intro rhs hrhs
    exact inAnyOrder_ends fun exchanged =>
      .wrapped exchanged hwrapping (hspec quotient rfl) hlhs hrhs

variable [ShaderJob J]

theorem writeFromUniform_ends
    (hrefused : ∀ u ∈ uniforms, ∀ failure, via.anchor u ty = .error failure → refused failure) :
    Ends (writeFromUniform via uniforms ty deeper literal value)
      (Form via uniforms ty operand literal .uniform value) refused := by
  unfold writeFromUniform
  have hpicked : Ends (draw (ShaderJob.pick? uniforms) : Synth σ (Option Uniform))
      (fun picked => ∀ u, picked = some u → u ∈ uniforms) refused :=
    Ends.draw fun _ _ => ShaderJob.mem_of_pick?
  refine hpicked.bind ?_
  intro picked hmem
  cases picked with
  | none => exact Ends.pure .noUniform
  | some u =>
    have hu := hmem u rfl
    have hanchor : Ends (liftM (via.anchor u ty) : Synth σ Anchor)
        (fun anchor => via.anchor u ty = .ok anchor) refused :=
      Ends.lift (fun _ h => h) (hrefused u hu)
    refine hanchor.bind ?_
    intro anchor hok
    have hmagnitude := Synthesizer.magnitude_le_largest hok
    unfold writeFromAnchor
    -- the rest is smaller than the larger of the two, hence within the domain
    refine Ends.ite (fun heq => Ends.pure (.anchor hu hok heq)) fun hne => ?_
    refine Ends.ite (fun habove => ?_) fun hbelow => ?_
    · have hrest : anchor.magnitude - value ≤ (via.domain ty).largest :=
        UInt32.le_trans (UInt32.sub_le (UInt32.le_of_lt habove)) hmagnitude
      refine (hdeeper _ hrest).bind ?_
      intro rest hrest
      exact Ends.pure (.above hu hok habove hrest)
    · have hbelow : anchor.magnitude < value :=
        UInt32.lt_of_le_of_ne (UInt32.not_lt.1 hbelow) hne
      have hrest : value - anchor.magnitude ≤ (via.domain ty).largest :=
        UInt32.le_trans (UInt32.sub_le (UInt32.le_of_lt hbelow)) hvalue
      refine (hdeeper _ hrest).bind ?_
      intro rest hrest
      exact inAnyOrder_ends fun exchanged => .below exchanged hu hok hbelow hrest

/-- Every strategy ends in one of its forms, and only anchors are refused here. -/
theorem write_ends (s : Strategy)
    (hrefused : s = .uniform → ∀ u ∈ uniforms, ∀ failure,
      via.anchor u ty = .error failure → refused failure) :
    Ends (s.write via uniforms ty deeper literal value)
      (Form via uniforms ty operand literal s value) refused := by
  cases s with
  | plain => exact Ends.pure .plain
  | sum => exact writeSum_ends hdeeper hvalue
  | difference => exact writeDifference_ends hdeeper hvalue
  | product => exact writeProduct_ends hdeeper hvalue
  | uniform => exact writeFromUniform_ends hdeeper hvalue (hrefused rfl)

end Strategy

end Camouflage
