import Camouflage.Proofs.Parts
import Camouflage.Proofs.Written

/-!
# Values composed by steps

Whatever synthesis writes is composed of literals and anchors by sums, differences and
products of magnitudes (`Computed`), where each step (`Domain.Steps`) is one of words
where the domain wraps and one of integers elsewhere. So the expression is worth its
magnitude (`Computed.eval`), and so is each part of it that is composed
(`Computed.of_binary_mem_parts`).
-/

namespace Camouflage

/-! ## Steps -/

namespace BinaryOp

/-- The operators by which magnitudes are composed. -/
def composes : BinaryOp → Bool
  | add | subtract | multiply => true
  | divide | modulo => false

/-- The operator on integers, where a division truncates. -/
def onIntegers : BinaryOp → Int → Int → Int
  | add, a, b => a + b
  | subtract, a, b => a - b
  | multiply, a, b => a * b
  | divide, a, b => a.tdiv b
  | modulo, a, b => a.tmod b

/-- On whole numbers up to two to the power of the precision no operator rounds, if the
result is one of them too. -/
theorem applyFloat_ofNat {f : Format} (hf : f.Spacious) {op : BinaryOp} {l r n : Nat}
    (hop : op.composes = true) (hstep : (n : Int) = op.onIntegers l r)
    (hl : l ≤ 2 ^ f.precision) (hr : r ≤ 2 ^ f.precision) (hn : n ≤ 2 ^ f.precision) :
    op.applyFloat (Binary.ofNat l : Binary f) (.ofNat r) = .ofNat n := by
  cases op with
  | add =>
    have hsum : n = l + r := by
      have : (n : Int) = l + r := hstep
      omega
    rw [hsum] at hn ⊢
    exact Binary.ofNat_add hf hn
  | subtract =>
    have hdifference : r ≤ l ∧ n = l - r := by
      have : (n : Int) = l - r := hstep
      omega
    rw [hdifference.2]
    exact Binary.ofNat_sub hf hdifference.1 hl
  | multiply =>
    have hproduct : n = l * r := by
      have : (n : Int) = l * r := hstep
      exact_mod_cast this
    rw [hproduct] at hn ⊢
    exact Binary.ofNat_mul hf hl hr hn
  | divide => cases hop
  | modulo => cases hop

/-- On signed words the operators give the same bits. -/
theorem applyInt32_toInt32 {op : BinaryOp} {l r n : UInt32} (hop : op.composes = true)
    (h : op.applyUInt32 l r = .ok n) : op.applyInt32 l.toInt32 r.toInt32 = .ok n.toInt32 := by
  cases op with
  | add =>
    rw [← Except.ok.inj h, UInt32.toInt32_add]
    rfl
  | subtract =>
    rw [← Except.ok.inj h, UInt32.toInt32_sub]
    rfl
  | multiply =>
    rw [← Except.ok.inj h, UInt32.toInt32_mul]
    rfl
  | divide => cases hop
  | modulo => cases hop

/-- On abstract integers the operators do not overflow if the result is a word. -/
theorem applyExact_of_onIntegers {op : BinaryOp} {a b : Int} {word : Int64}
    (hop : op.composes = true) (h : word.toInt = op.onIntegers a b) :
    op.applyExact a b = .ok (.abstractInt word) := by
  cases op with
  | add => exact Value.exact_eq_ok_iff.2 ⟨word, h, rfl⟩
  | subtract => exact Value.exact_eq_ok_iff.2 ⟨word, h, rfl⟩
  | multiply => exact Value.exact_eq_ok_iff.2 ⟨word, h, rfl⟩
  | divide => cases hop
  | modulo => cases hop

end BinaryOp

namespace Domain

/-- An operator takes two magnitudes of a domain to a third: as words where the domain
wraps, and as integers elsewhere. -/
structure Steps (domain : Domain) (op : BinaryOp) (l r n : UInt32) : Prop where
  composes : op.composes = true
  words : op.applyUInt32 l r = .ok n
  integers : domain ≠ .wrapping → (n.toNat : Int) = op.onIntegers l.toNat r.toNat

variable {domain : Domain} {l r n : UInt32}

theorem steps_add (hn : l + r = n) (hexact : domain ≠ .wrapping → n.toNat = l.toNat + r.toNat) :
    domain.Steps .add l r n := by
  refine ⟨rfl, by rw [← hn]; rfl, fun hdomain => ?_⟩
  rw [hexact hdomain]
  exact Int.natCast_add ..

theorem steps_subtract (hn : l - r = n)
    (hexact : domain ≠ .wrapping → l.toNat = n.toNat + r.toNat) :
    domain.Steps .subtract l r n := by
  refine ⟨rfl, by rw [← hn]; rfl, fun hdomain => ?_⟩
  have := hexact hdomain
  show (n.toNat : Int) = l.toNat - r.toNat
  omega

theorem steps_multiply (hn : l * r = n)
    (hexact : domain ≠ .wrapping → n.toNat = l.toNat * r.toNat) :
    domain.Steps .multiply l r n := by
  refine ⟨rfl, by rw [← hn]; rfl, fun hdomain => ?_⟩
  rw [hexact hdomain]
  exact Int.natCast_mul ..

/-- The operands of a sum or a product can be exchanged. -/
theorem Steps.exchanged {op : BinaryOp} (h : domain.Steps op l r n) (hop : op ≠ .subtract) :
    domain.Steps op r l n := by
  obtain ⟨hcomposes, hwords, hintegers⟩ := h
  cases op with
  | add =>
    refine ⟨rfl, ?_, fun hdomain => ?_⟩
    · rw [← hwords]
      exact congrArg Except.ok (UInt32.add_comm r l)
    · rw [hintegers hdomain]
      exact Int.add_comm ..
  | multiply =>
    refine ⟨rfl, ?_, fun hdomain => ?_⟩
    · rw [← hwords]
      exact congrArg Except.ok (UInt32.mul_comm r l)
    · rw [hintegers hdomain]
      exact Int.mul_comm ..
  | subtract => exact absurd rfl hop
  | divide => cases hcomposes
  | modulo => cases hcomposes

theorem Steps.applyFloat {f : Format} (hf : f.Spacious) (hwide : preciseLimit.toNat ≤ 2 ^ f.precision)
    {op : BinaryOp} (h : precise.Steps op l r n) (hl : l ≤ preciseLimit) (hr : r ≤ preciseLimit)
    (hn : n ≤ preciseLimit) :
    op.applyFloat (.ofNat l.toNat : Binary f) (.ofNat r.toNat) = .ofNat n.toNat := by
  rw [UInt32.le_iff_toNat_le] at hl hr hn
  exact BinaryOp.applyFloat_ofNat hf h.composes (h.integers (by decide)) (Nat.le_trans hl hwide)
    (Nat.le_trans hr hwide) (Nat.le_trans hn hwide)

/-- A step of magnitudes is one of the values that they stand for. -/
theorem Steps.apply {via : Synthesizer} {ty : Scalar} {op : BinaryOp}
    (h : (via.domain ty).Steps op l r n) (hhandles : via.handles ty = true)
    (hl : l ≤ (via.domain ty).largest) (hr : r ≤ (via.domain ty).largest)
    (hn : n ≤ (via.domain ty).largest) {x y : Value} (hx : Value.ofMagnitude? l ty = some x)
    (hy : Value.ofMagnitude? r ty = some y) :
    ∃ z, Value.ofMagnitude? n ty = some z ∧ op.apply x y = .ok z := by
  cases via with
  | integer =>
    cases ty with
    | u32 =>
      obtain rfl := Option.some.inj hx
      obtain rfl := Option.some.inj hy
      exact ⟨_, rfl, BinaryOp.apply_u32 h.words⟩
    | i32 =>
      obtain rfl := Option.some.inj hx
      obtain rfl := Option.some.inj hy
      exact ⟨_, rfl, BinaryOp.apply_i32 (BinaryOp.applyInt32_toInt32 h.composes h.words)⟩
    | abstractInt =>
      obtain rfl := Option.some.inj hx
      obtain rfl := Option.some.inj hy
      refine ⟨_, rfl, BinaryOp.applyExact_of_onIntegers h.composes ?_⟩
      rw [Literal.toInt_toUInt64_toInt64, Literal.toInt_toUInt64_toInt64,
        Literal.toInt_toUInt64_toInt64, h.integers (by decide)]
    | _ => cases hhandles
  | float =>
    cases ty with
    | f32 =>
      have hfloat := h.applyFloat Format.single_spacious (by decide) hl hr hn
      refine ⟨_, rfl, ?_⟩
      rw [← Option.some.inj hx, ← Option.some.inj hy, ← hfloat]
      rfl
    | abstractFloat =>
      have hfloat := h.applyFloat Format.double_spacious (by decide) hl hr hn
      refine ⟨_, rfl, ?_⟩
      rw [← Option.some.inj hx, ← Option.some.inj hy, ← hfloat]
      rfl
    | _ => cases hhandles

/-! ## Steps that strategies take -/

theorem toNat_mul_div (n r : UInt32) : (r * (n / r)).toNat = r.toNat * (n.toNat / r.toNat) := by
  have hle := Nat.mul_div_le n.toNat r.toNat
  have hlt := n.toNat_lt
  rw [UInt32.toNat_mul, UInt32.toNat_div, Nat.mod_eq_of_lt (by omega)]

theorem mul_div_le (n r : UInt32) : r * (n / r) ≤ n := by
  rw [UInt32.le_iff_toNat_le, toNat_mul_div]
  exact Nat.mul_div_le ..

/-- A part and the rest. Where the domain wraps the part may exceed the whole. -/
theorem steps_add_sub (hle : domain ≠ .wrapping → l ≤ n) : domain.Steps .add l (n - l) n := by
  refine steps_add ?_ fun hexact => ?_
  · rw [UInt32.add_comm]
    exact UInt32.sub_add_cancel n l
  · have hle := hle hexact
    have hsub := UInt32.toNat_sub_of_le _ _ hle
    rw [UInt32.le_iff_toNat_le] at hle
    omega

/-- What was added is taken off again. -/
theorem steps_add_cancel (hsum : domain ≠ .wrapping → n.toNat + r.toNat ≤ domain.largest.toNat) :
    domain.Steps .subtract (n + r) r n := by
  refine steps_subtract (UInt32.add_sub_cancel n r) fun hexact => ?_
  have hsum := hsum hexact
  have hlt := domain.largest.toNat_lt
  rw [UInt32.toNat_add, Nat.mod_eq_of_lt (by omega)]

theorem steps_sub_cancel (hle : n ≤ l) : domain.Steps .subtract l (l - n) n := by
  have hsub := UInt32.toNat_sub_of_le _ _ hle
  have hself : l - (l - n) = n := by grind
  rw [UInt32.le_iff_toNat_le] at hle
  exact steps_subtract hself fun _ => by omega

/-- A divisor times its quotient is at most the number, so that it does not wrap. -/
theorem steps_mul_div (domain : Domain) (n r : UInt32) :
    domain.Steps .multiply r (n / r) (r * (n / r)) := by
  refine steps_multiply rfl fun _ => ?_
  rw [toNat_mul_div, UInt32.toNat_div]

theorem mul_div_eq (hzero : n % r = 0) : r * (n / r) = n := by
  have hrest : n.toNat % r.toNat = 0 := by
    rw [← UInt32.toNat_mod, hzero]
    rfl
  refine UInt32.toNat_inj.1 ?_
  rw [toNat_mul_div, Nat.mul_div_cancel' (Nat.dvd_of_mod_eq_zero hrest)]

theorem steps_add_mod (domain : Domain) (n r : UInt32) :
    domain.Steps .add (r * (n / r)) (n % r) n := by
  have hsum : (r * (n / r)).toNat + (n % r).toNat = n.toNat := by
    rw [toNat_mul_div, UInt32.toNat_mod, Nat.div_add_mod]
  refine steps_add ?_ fun _ => hsum.symm
  refine UInt32.toNat_inj.1 ?_
  rw [UInt32.toNat_add, hsum]
  exact Nat.mod_eq_of_lt n.toNat_lt

end Domain

/-! ## Composition -/

/-- An expression composed for a magnitude: a literal, an anchor, or a step between two
others. -/
inductive Computed {J : Type} [Membership Uniform J] (via : Synthesizer) (uniforms : J)
    (ty : Scalar) : UInt32 → Expr → Prop
  | literal {n e} : via.enter ty n = .ok e → Computed via uniforms ty n e
  | anchor {u anchor} :
      ty.isAbstract = false → u ∈ uniforms → via.anchor u ty = .ok anchor →
      Computed via uniforms ty anchor.magnitude anchor.expr
  | step {op l r n lhs rhs} :
      (via.domain ty).Steps op l r n → n ≤ (via.domain ty).largest →
      Computed via uniforms ty l lhs → Computed via uniforms ty r rhs →
      Computed via uniforms ty n (.binary op lhs rhs)

namespace Computed

variable {J : Type} [Membership Uniform J] {via : Synthesizer} {uniforms : J} {ty : Scalar}
variable {n : UInt32} {e : Expr}

theorem le_largest (h : Computed via uniforms ty n e) : n ≤ (via.domain ty).largest := by
  cases h with
  | literal h => exact (Synthesizer.enter_eq_ok_iff.1 h).2.1
  | anchor _ _ hok => exact Synthesizer.magnitude_le_largest hok
  | step _ hle _ _ => exact hle

theorem ordered {op : BinaryOp} {l r : UInt32} {lhs rhs : Expr} (exchanged : Bool)
    (hop : op ≠ .subtract) (hstep : (via.domain ty).Steps op l r n)
    (hn : n ≤ (via.domain ty).largest) (hl : Computed via uniforms ty l lhs) (hr : Computed via uniforms ty r rhs) :
    Computed via uniforms ty n (Expr.ordered exchanged op lhs rhs) := by
  cases exchanged with
  | true => exact .step (hstep.exchanged hop) hn hr hl
  | false => exact .step hstep hn hl hr

/-- The forms of a strategy are composed if their operands are. -/
theorem of_form {operand : UInt32 → Expr → Prop} {literal : Expr} {s : Strategy}
    (hform : Strategy.Form via uniforms ty operand literal s n e)
    (hoperand : ∀ m x, operand m x → Computed via uniforms ty m x)
    (hliteral : via.enter ty n = .ok literal)
    (huniform : s = .uniform → ty.isAbstract = false) :
    Computed via uniforms ty n e := by
  have hn := (Synthesizer.enter_eq_ok_iff.1 hliteral).2.1
  cases hform with
  | plain => exact .literal hliteral
  | noUniform => exact .literal hliteral
  | sum exchanged hle hl hr =>
    exact ordered exchanged (by decide) (Domain.steps_add_sub hle) hn (hoperand _ _ hl)
      (hoperand _ _ hr)
  | difference hle hl hr =>
    exact .step (Domain.steps_add_cancel hle) hn (hoperand _ _ hl) (hoperand _ _ hr)
  | wrapped exchanged hwrapping hproduct hl hr =>
    exact ordered exchanged (by decide)
      (Domain.steps_multiply hproduct fun hexact => absurd hwrapping hexact) hn (hoperand _ _ hl)
      (hoperand _ _ hr)
  | @factor _ divisor lhs rhs exchanged _ hzero hl hr =>
    have hstep := Domain.steps_mul_div (via.domain ty) n divisor
    rw [Domain.mul_div_eq hzero] at hstep
    exact ordered exchanged (by decide) hstep hn (hoperand _ _ hl) (hoperand _ _ hr)
  | @remainder _ divisor lhs rhs rest exchanged exchanged' _ hl hr hrest =>
    have hle := UInt32.le_trans (Domain.mul_div_le n divisor) hn
    have hmultiply : Computed via uniforms ty (divisor * (n / divisor))
        (Expr.ordered exchanged .multiply lhs rhs) :=
      ordered exchanged (by decide) (Domain.steps_mul_div (via.domain ty) n divisor) hle
        (hoperand _ _ hl) (hoperand _ _ hr)
    exact ordered exchanged' (by decide) (Domain.steps_add_mod (via.domain ty) n divisor) hn
      hmultiply (hoperand _ _ hrest)
  | anchor hu hok heq =>
    rw [← heq]
    exact .anchor (huniform rfl) hu hok
  | above hu hok hlt hrest =>
    exact .step (Domain.steps_sub_cancel (UInt32.le_of_lt hlt)) hn
      (.anchor (huniform rfl) hu hok) (hoperand _ _ hrest)
  | below exchanged hu hok hlt hrest =>
    -- the anchor takes the place of the part of a sum
    exact ordered exchanged (by decide) (Domain.steps_add_sub fun _ => UInt32.le_of_lt hlt) hn
      (.anchor (huniform rfl) hu hok) (hoperand _ _ hrest)

/-- What synthesis writes is composed. -/
theorem of_written {palette : Palette J} {levels depth : Nat}
    (h : palette.Written via ty levels depth n e) : Computed via palette.uniforms ty n e := by
  induction levels generalizing depth n e with
  | zero => exact .literal h
  | succ levels ih =>
    obtain ⟨literal, s, hliteral, henabled, hform⟩ := h
    refine of_form hform (fun m x hx => ih hx) hliteral ?_
    rintro rfl
    exact henabled.isAbstract_eq_false

/-- A composed expression is worth its magnitude where the uniforms hold their contents. -/
theorem eval {b : Bindings} (hhandles : via.handles ty = true)
    (hb : b.Serves ty uniforms) (h : Computed via uniforms ty n e) :
    ∃ v, Value.ofMagnitude? n ty = some v ∧ e.eval b = .ok v := by
  induction h with
  | literal h =>
    obtain ⟨v, hv, heval⟩ := Synthesizer.eval_of_enter h
    exact ⟨v, hv, heval b⟩
  | @anchor u anchor hty hu hok =>
    obtain ⟨v, w, hcontents, hw, hworth⟩ :=
      Synthesizer.worth_of_anchor (hb.refersTo hty u hu) hty hhandles hok
    exact ⟨w, hw, hworth b (hb.lookup_eq hty u hu v hcontents)⟩
  | step hstep hn hl hr ihl ihr =>
    obtain ⟨x, hx, hlhs⟩ := ihl
    obtain ⟨y, hy, hrhs⟩ := ihr
    obtain ⟨z, hz, happly⟩ := hstep.apply hhandles hl.le_largest hr.le_largest hn hx hy
    exact ⟨z, hz, by rw [Expr.eval_binary hlhs hrhs, happly]⟩

/-- Every sum, difference and product in a composed expression is a step. -/
theorem of_binary_mem_parts (href : ty.RefersTo uniforms)
    (h : Computed via uniforms ty n e) {op : BinaryOp} (hop : op.composes = true)
    {lhs rhs : Expr} (hmem : .binary op lhs rhs ∈ e.parts) :
    ∃ l r m, (via.domain ty).Steps op l r m ∧ m ≤ (via.domain ty).largest ∧
      Computed via uniforms ty l lhs ∧ Computed via uniforms ty r rhs := by
  induction h with
  | literal h =>
    have hwrite := (Synthesizer.enter_eq_ok_iff.1 h).2.2
    exact absurd hmem (Literal.binary_not_mem_parts_of_writeMagnitude hwrite op lhs rhs)
  | @anchor u anchor hty hu hok =>
    have hmodulo := (Anchor.shape_of_synthesizer hok).eq_modulo_of_mem (href hty u hu) hmem
    rw [hmodulo] at hop
    cases hop
  | step hstep hn hl hr ihl ihr =>
    rw [Expr.parts_binary] at hmem
    rcases List.mem_cons.1 hmem with heq | hmem
    · obtain ⟨rfl, rfl, rfl⟩ := Expr.binary.inj heq
      exact ⟨_, _, _, hstep, hn, hl, hr⟩
    · rcases List.mem_append.1 hmem with hmem | hmem
      · exact ihl hmem
      · exact ihr hmem

/-- All parts of a composed expression of an abstract type are composed. -/
theorem of_mem_parts (hty : ty.isAbstract = true) (h : Computed via uniforms ty n e)
    {part : Expr} (hmem : part ∈ e.parts) : ∃ m, Computed via uniforms ty m part := by
  induction h with
  | literal h =>
    have hwrite := (Synthesizer.enter_eq_ok_iff.1 h).2.2
    rw [Literal.parts_of_writeMagnitude hty hwrite] at hmem
    rw [List.mem_singleton.1 hmem]
    exact ⟨_, .literal h⟩
  | anchor hconcrete _ _ =>
    rw [hty] at hconcrete
    cases hconcrete
  | step hstep hn hl hr ihl ihr =>
    rw [Expr.parts_binary] at hmem
    rcases List.mem_cons.1 hmem with rfl | hmem
    · exact ⟨_, .step hstep hn hl hr⟩
    · rcases List.mem_append.1 hmem with hmem | hmem
      · exact ihl hmem
      · exact ihr hmem

end Computed

end Camouflage
