import Camouflage.Proofs.Magnitudes
import Camouflage.Random.ChaCha

/-!
# How large a disguise can be

A level of synthesis puts at most two operators on top of each other and leaves at most three
magnitudes to the level below: the factors of a product and its remainder. An anchor is no
larger than that, even one that has to be reduced, which takes an operator and a literal of
its own. So the nesting of a disguise grows by two a level and its leaves by a factor of three
(`Expr.Within`), apart from what is nested in the references themselves.
-/

namespace Camouflage

namespace Expr

/-! ## Leaves -/

mutual

/-- The number of leaves of an expression, literals and references. Each of the given
references is one leaf, whatever it is made of. -/
def leaves (references : List Expr) (e : Expr) : Nat :=
  if e ∈ references then
    1
  else
    match e with
    | boolLiteral _ | intLiteral _ | floatLiteral _ | identifier _ => 1
    | member receiver _ => leaves references receiver
    | index target position => leaves references target + leaves references position
    | unary _ target => leaves references target
    | binary _ lhs rhs => leaves references lhs + leaves references rhs
    | call _ args => leavesList references args
    | construct _ args => leavesList references args
    | paren inner => leaves references inner
termination_by structural e

/-- The number of leaves of a list of expressions. -/
def leavesList (references : List Expr) : List Expr → Nat
  | [] => 0
  | e :: es => leaves references e + leavesList references es
termination_by structural es => es

end

variable {references : List Expr} {e lhs rhs : Expr}

theorem leaves_of_mem (h : e ∈ references) : e.leaves references = 1 := by
  rw [leaves.eq_def, if_pos h]

theorem binaryDepth_le_of_mem (h : e ∈ references) : e.binaryDepth ≤ binaryDepthList references := by
  induction references with
  | nil => cases h
  | cons x xs ih =>
    rw [binaryDepthList]
    rcases List.mem_cons.1 h with rfl | h
    · exact Nat.le_max_left ..
    · exact Nat.le_trans (ih h) (Nat.le_max_right ..)

theorem binaryDepth_of_isLoneLiteral (h : e.isLoneLiteral = true) : e.binaryDepth = 0 := by
  fun_induction isLoneLiteral e with
  | case1 text => rfl
  | case2 text => rfl
  | case3 op target ih => exact ih h
  | case4 ty arg ih => rw [binaryDepth, binaryDepthList, binaryDepthList, ih h, Nat.max_self]
  | case5 => cases h

theorem leaves_of_isLoneLiteral (h : e.isLoneLiteral = true) : e.leaves references = 1 := by
  fun_induction isLoneLiteral e with
  | case1 text => rw [leaves, ite_self]
  | case2 text => rw [leaves, ite_self]
  | case3 op target ih => rw [leaves, ih h, ite_self]
  | case4 ty arg ih => rw [leaves, leavesList, leavesList, ih h, ite_self]
  | case5 => cases h

/-! ## Bounds on an expression -/

/-- Whether an expression is nested at most so deeply and has at most so many leaves. -/
structure Within (references : List Expr) (nesting count : Nat) (e : Expr) : Prop where
  binaryDepth_le : e.binaryDepth ≤ nesting
  leaves_le : e.leaves references ≤ count

namespace Within

variable {nesting count nesting' count' : Nat}

theorem mono (h : e.Within references nesting count) (hnesting : nesting ≤ nesting')
    (hcount : count ≤ count') : e.Within references nesting' count' :=
  ⟨Nat.le_trans h.binaryDepth_le hnesting, Nat.le_trans h.leaves_le hcount⟩

theorem of_isLoneLiteral (h : e.isLoneLiteral = true) : e.Within references 0 1 :=
  ⟨Nat.le_of_eq (binaryDepth_of_isLoneLiteral h), Nat.le_of_eq (leaves_of_isLoneLiteral h)⟩

theorem of_mem (h : e ∈ references) : e.Within references (binaryDepthList references) 1 :=
  ⟨binaryDepth_le_of_mem h, Nat.le_of_eq (leaves_of_mem h)⟩

/-- A node that is a reference itself is one leaf, so the bounds must allow for one. -/
theorem neg (h : e.Within references nesting count) (hpos : 1 ≤ count) :
    e.neg.Within references nesting count := by
  refine ⟨h.binaryDepth_le, ?_⟩
  rw [leaves]
  split
  · exact hpos
  · exact h.leaves_le

theorem construct (h : e.Within references nesting count) (hpos : 1 ≤ count) (ty : Scalar) :
    (construct ty [e]).Within references nesting count := by
  constructor
  · rw [binaryDepth, binaryDepthList, binaryDepthList, Nat.max_zero]
    exact h.binaryDepth_le
  · rw [leaves]
    split
    · exact hpos
    · exact h.leaves_le

theorem call (h : e.Within references nesting count) (hpos : 1 ≤ count) (callee : String) :
    (call callee [e]).Within references nesting count := by
  constructor
  · rw [binaryDepth, binaryDepthList, binaryDepthList, Nat.max_zero]
    exact h.binaryDepth_le
  · rw [leaves]
    split
    · exact hpos
    · exact h.leaves_le

theorem binary (hl : lhs.Within references nesting count) (hr : rhs.Within references nesting count')
    (hpos : 1 ≤ count) (op : BinaryOp) :
    (binary op lhs rhs).Within references (nesting + 1) (count + count') := by
  obtain ⟨hldepth, hlleaves⟩ := hl
  obtain ⟨hrdepth, hrleaves⟩ := hr
  constructor
  · rw [binaryDepth]
    omega
  · rw [leaves]
    split
    · omega
    · omega

theorem ordered (hl : lhs.Within references nesting count) (hr : rhs.Within references nesting count')
    (hpos : 1 ≤ count) (hpos' : 1 ≤ count') (exchanged : Bool) (op : BinaryOp) :
    (Expr.ordered exchanged op lhs rhs).Within references (nesting + 1) (count + count') := by
  cases exchanged with
  | true =>
    rw [Nat.add_comm count]
    exact hr.binary hl hpos' op
  | false => exact hl.binary hr hpos op

end Within

end Expr

/-! ## One level -/

/-- An anchor has at most one operator over its reference, and one literal beside it. -/
theorem Anchor.Shape.within {references : List Expr} {reference e : Expr} {ty : Scalar} {nesting : Nat}
    (h : Shape reference ty e) (href : reference.Within references nesting 1) :
    e.Within references (nesting + 1) 2 := by
  have hone : ∀ {x : Expr}, x.Within references nesting 1 → x.Within references (nesting + 1) 2 :=
    fun hx => hx.mono (Nat.le_succ _) (by decide)
  cases h with
  | reference => exact hone href
  | construct => exact hone (href.construct (Nat.le_refl 1) ty)
  | trunc => exact hone (href.call (Nat.le_refl 1) _)
  | @reduced base modulus hbase hwrite =>
    have hinner : base.Within references nesting 1 := by
      rcases hbase with rfl | rfl
      · exact href
      · exact href.call (Nat.le_refl 1) _
    have hmodulus : modulus.Within references nesting 1 :=
      (Expr.Within.of_isLoneLiteral (Literal.isLoneLiteral_of_write hwrite)).mono (Nat.zero_le _)
        (Nat.le_refl 1)
    have hword := (hinner.call (Nat.le_refl 1) "abs").construct (Nat.le_refl 1) .u32
    exact (hword.binary hmodulus (Nat.le_refl 1) .modulo).construct (by decide) .f32

/-- A strategy adds two to the nesting and at most triples the leaves. -/
theorem Strategy.Form.within {J : Type} [Membership Uniform J] {via : Synthesizer} {uniforms : J}
    {ty : Scalar} {operand : UInt32 → Expr → Prop} {literal e : Expr} {s : Strategy} {n : UInt32}
    {references : List Expr} {nesting count : Nat} (hpos : 1 ≤ count)
    (hform : Form via uniforms ty operand literal s n e)
    (hliteral : literal.isLoneLiteral = true)
    (huniforms : ∀ u ∈ uniforms, u.reference.Within references nesting 1)
    (hoperand : ∀ m x, operand m x → x.Within references nesting count) :
    e.Within references (nesting + 2) (3 * count) := by
  have hanchor : ∀ {u anchor}, u ∈ uniforms → via.anchor u ty = .ok anchor →
      anchor.expr.Within references (nesting + 1) 2 :=
    fun hu hok => (Anchor.shape_of_synthesizer hok).within (huniforms _ hu)
  have hplain : literal.Within references (nesting + 2) (3 * count) :=
    (Expr.Within.of_isLoneLiteral hliteral).mono (Nat.zero_le _) (by omega)
  cases hform with
  | plain => exact hplain
  | noUniform => exact hplain
  | sum exchanged _ hl hr =>
    exact ((hoperand _ _ hl).ordered (hoperand _ _ hr) hpos hpos exchanged .add).mono (by omega)
      (by omega)
  | difference _ hl hr =>
    exact ((hoperand _ _ hl).binary (hoperand _ _ hr) hpos .subtract).mono (by omega) (by omega)
  | wrapped exchanged _ _ hl hr =>
    exact ((hoperand _ _ hl).ordered (hoperand _ _ hr) hpos hpos exchanged .multiply).mono (by omega)
      (by omega)
  | factor exchanged _ _ hl hr =>
    exact ((hoperand _ _ hl).ordered (hoperand _ _ hr) hpos hpos exchanged .multiply).mono (by omega)
      (by omega)
  | remainder exchanged exchanged' _ hl hr hrest =>
    have hproduct := (hoperand _ _ hl).ordered (hoperand _ _ hr) hpos hpos exchanged .multiply
    have hmore := (hoperand _ _ hrest).mono (Nat.le_succ nesting) (Nat.le_refl count)
    exact (hproduct.ordered hmore (by omega) hpos exchanged' .add).mono (by omega) (by omega)
  | anchor hu hok _ => exact (hanchor hu hok).mono (by omega) (by omega)
  | above hu hok _ hrest =>
    have hmore := (hoperand _ _ hrest).mono (Nat.le_succ nesting) (Nat.le_refl count)
    exact ((hanchor hu hok).binary hmore (by decide) .subtract).mono (by omega) (by omega)
  | below exchanged hu hok _ hrest =>
    have hmore := (hoperand _ _ hrest).mono (Nat.le_succ nesting) (Nat.le_refl count)
    exact ((hanchor hu hok).ordered hmore (by decide) hpos exchanged .add).mono (by omega) (by omega)

/-! ## All levels -/

namespace Palette

open Synth

/-- The references of the uniforms. -/
def references (palette : Palette) : List Expr := palette.uniforms.map Uniform.reference

variable {palette : Palette} {ty : Scalar} {depth : Nat}

/-- What is written with so many levels left is within two operators of nesting a level, on
top of those in the references, and a factor of three in leaves. -/
theorem Written.within {via : Synthesizer} {levels : Nat} {n : UInt32} {e : Expr}
    (h : palette.Written via ty levels depth n e) :
    e.Within palette.references (2 * levels + Expr.binaryDepthList palette.references)
      (3 ^ levels) := by
  induction levels generalizing depth n e with
  | zero =>
    have hlone := Synthesizer.isLoneLiteral_of_enter h
    exact (Expr.Within.of_isLoneLiteral hlone).mono (Nat.zero_le _) (Nat.le_refl 1)
  | succ levels ih =>
    obtain ⟨literal, s, hliteral, -, hform⟩ := h
    have hreference : ∀ u ∈ palette.uniforms, u.reference.Within palette.references
        (2 * levels + Expr.binaryDepthList palette.references) 1 := by
      intro u hu
      exact (Expr.Within.of_mem (List.mem_map_of_mem hu)).mono (Nat.le_add_left ..) (Nat.le_refl 1)
    have hlevel := hform.within (Nat.one_le_pow levels 3 (by decide))
      (Synthesizer.isLoneLiteral_of_enter hliteral) hreference fun _ _ hx => ih hx
    exact hlevel.mono (by omega) (Nat.le_of_eq (Nat.pow_succ' ..).symm)

variable {σ : Type} [WordSource σ] {source : σ} {k : Disguise}

/-- A disguise is nested at most twice as deeply as there are levels, on top of what is nested
in a reference, and has at most three to the power of the levels many leaves. Without a level
it is a literal, given without a draw. -/
theorem size_bounded {request : Request} (hrequest : request.Admissible ty)
    (hrun : outcome (palette.disguise depth request) source = .ok k) :
    k.rewritten.binaryDepth ≤
        2 * (palette.maxDepth - depth) + Expr.binaryDepthList palette.references ∧
      k.rewritten.leaves palette.references ≤ 3 ^ (palette.maxDepth - depth) ∧
      (palette.maxDepth ≤ depth →
        k.rewritten.binaryDepth = 0 ∧ k.rewritten.isLoneLiteral = true ∧
          (palette.disguise depth request : Synth σ Disguise) = pure k) := by
  obtain ⟨via, n, e, hwritten, hdressed⟩ := exists_written_of_disguise hrequest hrun
  have hwithin : k.rewritten.Within palette.references
      (2 * (palette.maxDepth - depth) + Expr.binaryDepthList palette.references)
      (3 ^ (palette.maxDepth - depth)) := by
    rcases hdressed with heq | heq
    · rw [heq]
      exact hwritten.within
    · rw [heq]
      exact hwritten.within.neg (Nat.one_le_pow _ 3 (by decide))
  refine ⟨hwithin.binaryDepth_le, hwithin.leaves_le, fun hlimit => ?_⟩
  obtain ⟨_, _, literal, k', hliteral, hsigned, hpure⟩ :
      ∃ (via : Synthesizer) (n : UInt32) (literal : Expr) (k' : Disguise),
        via.enter ty n = .ok literal ∧ (k'.rewritten = literal ∨ k'.rewritten = literal.neg) ∧
        (palette.disguise depth request : Synth σ Disguise) = pure k' :=
    disguise_of_limit hrequest hlimit
  rw [hpure] at hrun
  obtain rfl : k' = k := Except.ok.inj hrun
  have hlone : k'.rewritten.isLoneLiteral = true := by
    rcases hsigned with heq | heq
    · rw [heq, Synthesizer.isLoneLiteral_of_enter hliteral]
    · rw [heq, Expr.neg, Expr.isLoneLiteral, Synthesizer.isLoneLiteral_of_enter hliteral]
  exact ⟨Expr.binaryDepth_of_isLoneLiteral hlone, hlone, hpure⟩

/-- Derives everything from one element of a buffer, at a position with an operator in it. -/
def indexed (maxDepth : Nat) : Palette where
  maxDepth := maxDepth
  weights := .only .uniform
  uniforms := [⟨.index (.identifier "a") (.binary .add (.intLiteral "1") (.intLiteral "2")),
    .unary .negate (.floatLiteral "2.5"), .f32⟩]

/-- A reduced anchor and its correction reach both bounds at once; without a level there is
nothing but the literal. -/
theorem size_bounded_attained :
    (∃ k, outcome ((indexed 1).disguise 0 (.literal (.floatLiteral "12.0") (.scalar .f32)))
        (ChaCha.ofSeed 0) = .ok k ∧
      k.rewritten.binaryDepth = 3 ∧ k.rewritten.binaryDepth ≤ 2 * 1 + 1 ∧
      k.rewritten.leaves (indexed 1).references = 3 ∧
      k.rewritten.leaves (indexed 1).references ≤ 3 ^ 1) ∧
    ∃ k, outcome ((indexed 0).disguise 0 (.integer (-7) .i32)) (ChaCha.ofSeed 0) = .ok k ∧
      k.rewritten.binaryDepth = 0 ∧ k.rewritten.isLoneLiteral = true ∧
      ((indexed 0).disguise 0 (.integer (-7) .i32) : Synth ChaCha Disguise) = pure k := by
  have hreads : Literal.ReadsAs (.floatLiteral "12.0") 12 :=
    ⟨.ofNat 12, by decide +kernel, by decide +kernel⟩
  have hfloat : (Request.literal (.floatLiteral "12.0") (.scalar .f32)).Admissible .f32 :=
    .floatLiteral hreads rfl (by decide) (by decide)
  have hinteger : (Request.integer (-7) .i32).Admissible .i32 :=
    .integer ⟨rfl, by decide, by decide⟩
  constructor
  · obtain ⟨k, hrun, hdepth, hleaves⟩ : ∃ k,
        outcome ((indexed 1).disguise 0 (.literal (.floatLiteral "12.0") (.scalar .f32)))
          (ChaCha.ofSeed 0) = .ok k ∧
        k.rewritten.binaryDepth = 3 ∧ k.rewritten.leaves (indexed 1).references = 3 := by
      refine ⟨⟨.floatLiteral "12f", .binary .add (.construct .f32 [.binary .modulo
        (.construct .u32 [.call "abs" [.call "trunc" [.index (.identifier "a")
          (.binary .add (.intLiteral "1") (.intLiteral "2"))]]]) (.intLiteral "16777217u")])
        (.floatLiteral "10f")⟩, ?_⟩
      decide +kernel
    obtain ⟨hnesting, hcount, -⟩ := size_bounded hfloat hrun
    exact ⟨k, hrun, hdepth, hnesting, hleaves, hcount⟩
  · have hok : (outcome ((indexed 0).disguise 0 (.integer (-7) .i32)) (ChaCha.ofSeed 0)).isOk =
        true := by decide +kernel
    obtain ⟨k, hrun⟩ := exists_ok hok
    exact ⟨k, hrun, (size_bounded hinteger hrun).2.2 (Nat.le_refl 0)⟩

end Palette

end Camouflage
