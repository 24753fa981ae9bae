import Camouflage.Proofs.Magnitudes
import Camouflage.Random.ChaCha

/-!
# What a strategy leaves in a disguise

Every node of a disguise tells of the strategies behind it. A product leaves a multiplication,
a difference a subtraction; a reference, a remainder or a call can only come from an anchor.
`Expr.DueTo` says so of one node, given the strategies that were used, and
`Palette.dueTo_available` of all nodes of a disguise and the strategies that could be chosen
at one of its levels. So a strategy without weight leaves no trace.
-/

namespace Camouflage

/-! ## Nodes and strategies -/

/-- Whether an operator comes from one of the strategies used for a type. -/
def BinaryOp.DueTo (ty : Scalar) (used : Strategy → Prop) : BinaryOp → Prop
  | .add => used .sum ∨ used .product ∨ used .uniform
  | .subtract => used .difference ∨ used .uniform
  | .multiply => used .product
  | .divide => False
  | .modulo => used .uniform ∧ ty = .f32

namespace Expr

variable {J : Type} [Membership Uniform J]

/-- Whether a node comes from one of the strategies used for a type over uniforms. Any of them
may write a literal, with its sign and its conversion. -/
def DueTo (uniforms : J) (ty : Scalar) (used : Strategy → Prop) (e : Expr) : Prop :=
  match e with
  | intLiteral _ | floatLiteral _ | unary .. | construct .. => True
  | boolLiteral _ | paren _ => False
  | identifier _ | member .. | index .. =>
    used .uniform ∧ ty.isAbstract = false ∧ ∃ u ∈ uniforms, u.reference = e
  | binary op _ _ => op.DueTo ty used
  | call callee _ => (callee = "trunc" ∨ callee = "abs") ∧ used .uniform ∧ ty = .f32

variable {uniforms : J} {ty : Scalar} {used used' : Strategy → Prop} {e lhs rhs : Expr}

theorem DueTo.mono (h : e.DueTo uniforms ty used) (hused : ∀ s, used s → used' s) :
    e.DueTo uniforms ty used' := by
  cases e with
  | binary op lhs rhs =>
    cases op with
    | add => exact h.imp (hused _) fun h => h.imp (hused _) (hused _)
    | subtract => exact h.imp (hused _) (hused _)
    | multiply => exact hused _ h
    | divide => exact h
    | modulo => exact ⟨hused _ h.1, h.2⟩
  | identifier name => exact ⟨hused _ h.1, h.2⟩
  | member receiver name => exact ⟨hused _ h.1, h.2⟩
  | index target position => exact ⟨hused _ h.1, h.2⟩
  | call callee args => exact ⟨h.1, hused _ h.2.1, h.2.2⟩
  | _ => exact h

/-- Whether all nodes of an expression come from the strategies used. -/
def AllDueTo (uniforms : J) (ty : Scalar) (used : Strategy → Prop) (e : Expr) : Prop :=
  ∀ part ∈ e.parts, part.DueTo uniforms ty used

namespace AllDueTo

theorem mono (h : e.AllDueTo uniforms ty used) (hused : ∀ s, used s → used' s) :
    e.AllDueTo uniforms ty used' :=
  fun part hpart => (h part hpart).mono hused

theorem of_isLoneLiteral (h : e.isLoneLiteral = true) : e.AllDueTo uniforms ty used := by
  intro part hpart
  have hlone := isLoneLiteral_of_mem_parts h hpart
  cases part with
  | intLiteral text => trivial
  | floatLiteral text => trivial
  | unary op target => trivial
  | construct ty args => trivial
  | _ => cases hlone

theorem of_isReference (href : e.isReference = true) (hused : used .uniform)
    (hty : ty.isAbstract = false) (h : ∃ u ∈ uniforms, u.reference = e) :
    e.AllDueTo uniforms ty used := by
  intro part hpart
  rw [parts_of_isReference href] at hpart
  obtain rfl := List.mem_singleton.1 hpart
  cases part with
  | identifier name => exact ⟨hused, hty, h⟩
  | member receiver name => exact ⟨hused, hty, h⟩
  | index target position => exact ⟨hused, hty, h⟩
  | _ => cases href

theorem neg (h : e.AllDueTo uniforms ty used) : e.neg.AllDueTo uniforms ty used := by
  rw [AllDueTo, parts_unary]
  exact List.forall_mem_cons.2 ⟨trivial, h⟩

theorem construct (h : e.AllDueTo uniforms ty used) (target : Scalar) :
    (construct target [e]).AllDueTo uniforms ty used := by
  rw [AllDueTo, parts_construct]
  exact List.forall_mem_cons.2 ⟨trivial, h⟩

theorem call (h : e.AllDueTo uniforms ty used) (hused : used .uniform) (hty : ty = .f32)
    {callee : String} (hcallee : callee = "trunc" ∨ callee = "abs") :
    (call callee [e]).AllDueTo uniforms ty used := by
  rw [AllDueTo, parts_call]
  exact List.forall_mem_cons.2 ⟨⟨hcallee, hused, hty⟩, h⟩

theorem binary (hl : lhs.AllDueTo uniforms ty used) (hr : rhs.AllDueTo uniforms ty used)
    (op : BinaryOp) (hop : op.DueTo ty used) : (binary op lhs rhs).AllDueTo uniforms ty used := by
  rw [AllDueTo, parts_binary]
  exact List.forall_mem_cons.2 ⟨hop, List.forall_mem_append.2 ⟨hl, hr⟩⟩

theorem ordered (hl : lhs.AllDueTo uniforms ty used) (hr : rhs.AllDueTo uniforms ty used)
    (op : BinaryOp) (hop : op.DueTo ty used) (exchanged : Bool) :
    (Expr.ordered exchanged op lhs rhs).AllDueTo uniforms ty used := by
  cases exchanged with
  | true => exact hr.binary hl op hop
  | false => exact hl.binary hr op hop

end AllDueTo

end Expr

/-! ## One level -/

/-- Only an anchor of single precision has a call or a remainder in it. -/
theorem Anchor.Shape.allDueTo {J : Type} [Membership Uniform J] {uniforms : J} {ty : Scalar}
    {used : Strategy → Prop} {reference e : Expr} (h : Shape reference ty e) (hused : used .uniform)
    (href : reference.AllDueTo uniforms ty used) : e.AllDueTo uniforms ty used := by
  cases h with
  | reference => exact href
  | construct => exact href.construct ty
  | trunc => exact href.call hused rfl (.inl rfl)
  | @reduced base modulus hbase hwrite =>
    have hinner : base.AllDueTo uniforms .f32 used := by
      rcases hbase with rfl | rfl
      · exact href
      · exact href.call hused rfl (.inl rfl)
    have hmodulus : modulus.AllDueTo uniforms .f32 used :=
      .of_isLoneLiteral (Literal.isLoneLiteral_of_write hwrite)
    have hword := (hinner.call hused rfl (.inr rfl)).construct .u32
    exact (hword.binary hmodulus .modulo ⟨hused, rfl⟩).construct .f32

/-- The nodes that a strategy writes are due to it, if those of its operands are due to the
strategies used. -/
theorem Strategy.Form.allDueTo {J : Type} [Membership Uniform J] {via : Synthesizer} {uniforms : J}
    {ty : Scalar} {operand : UInt32 → Expr → Prop} {literal e : Expr} {s : Strategy} {n : UInt32}
    {used : Strategy → Prop} (hform : Form via uniforms ty operand literal s n e)
    (hused : used s) (hconcrete : s = .uniform → ty.isAbstract = false)
    (hliteral : literal.isLoneLiteral = true)
    (href : ∀ u ∈ uniforms, u.reference.isReference = true)
    (hoperand : ∀ m x, operand m x → x.AllDueTo uniforms ty used) :
    e.AllDueTo uniforms ty used := by
  have hplain : literal.AllDueTo uniforms ty used := .of_isLoneLiteral hliteral
  have hanchor : ∀ {u anchor}, s = .uniform → u ∈ uniforms → via.anchor u ty = .ok anchor →
      anchor.expr.AllDueTo uniforms ty used := by
    rintro u anchor rfl hu hok
    have hreference := Expr.AllDueTo.of_isReference (href u hu) hused (hconcrete rfl) ⟨u, hu, rfl⟩
    exact (Anchor.shape_of_synthesizer hok).allDueTo hused hreference
  cases hform with
  | plain => exact hplain
  | noUniform => exact hplain
  | sum exchanged _ hl hr =>
    exact (hoperand _ _ hl).ordered (hoperand _ _ hr) .add (.inl hused) exchanged
  | difference _ hl hr => exact (hoperand _ _ hl).binary (hoperand _ _ hr) .subtract (.inl hused)
  | wrapped exchanged _ _ hl hr =>
    exact (hoperand _ _ hl).ordered (hoperand _ _ hr) .multiply hused exchanged
  | factor exchanged _ _ hl hr =>
    exact (hoperand _ _ hl).ordered (hoperand _ _ hr) .multiply hused exchanged
  | remainder exchanged exchanged' _ hl hr hrest =>
    have hproduct := (hoperand _ _ hl).ordered (hoperand _ _ hr) .multiply hused exchanged
    exact hproduct.ordered (hoperand _ _ hrest) .add (.inr (.inl hused)) exchanged'
  | anchor hu hok _ => exact hanchor rfl hu hok
  | above hu hok _ hrest =>
    exact (hanchor rfl hu hok).binary (hoperand _ _ hrest) .subtract (.inr hused)
  | below exchanged hu hok _ hrest =>
    exact (hanchor rfl hu hok).ordered (hoperand _ _ hrest) .add (.inr (.inr hused)) exchanged

/-! ## All levels -/

namespace Palette

open Synth

variable {J : Type}

/-- Whether a strategy can be chosen at one of the levels from a depth on. -/
def Available (palette : Palette J) (ty : Scalar) (depth : Nat) (s : Strategy) : Prop :=
  ∃ d, depth ≤ d ∧ d < palette.maxDepth ∧ palette.Enabled ty d s

variable {palette : Palette J} {ty : Scalar} {depth : Nat}

theorem Available.of_deeper {s : Strategy} (h : palette.Available ty (depth + 1) s) :
    palette.Available ty depth s := by
  obtain ⟨d, hlow, hhigh, henabled⟩ := h
  exact ⟨d, Nat.le_of_succ_le hlow, hhigh, henabled⟩

variable [Membership Uniform J]

theorem Written.allDueTo {via : Synthesizer} {levels : Nat} {n : UInt32} {e : Expr}
    (h : palette.Written via ty levels depth n e)
    (href : ∀ u ∈ palette.uniforms, u.reference.isReference = true)
    (hlevels : levels ≤ palette.maxDepth - depth) :
    e.AllDueTo palette.uniforms ty (palette.Available ty depth) := by
  induction levels generalizing depth n e with
  | zero =>
    exact .of_isLoneLiteral (Synthesizer.isLoneLiteral_of_enter h)
  | succ levels ih =>
    obtain ⟨literal, s, hliteral, henabled, hform⟩ := h
    have havailable : palette.Available ty depth s := ⟨depth, Nat.le_refl depth, by omega, henabled⟩
    refine hform.allDueTo havailable ?_ (Synthesizer.isLoneLiteral_of_enter hliteral) href ?_
    · rintro rfl
      exact henabled.isAbstract_eq_false
    · intro m x hx
      exact (ih hx (by omega)).mono fun _ => Available.of_deeper

variable [ShaderJob J] {σ : Type} [WordSource σ] {source : σ} {k : Disguise}

/-- Every node of a disguise comes from a strategy that has weight at one of its levels, and
every reference in it is that of a uniform. -/
theorem dueTo_available {request : Request} (hrequest : request.Admissible ty)
    (href : ∀ u ∈ palette.uniforms, u.reference.isReference = true)
    (hrun : outcome (palette.disguise depth request) source = .ok k) :
    ∀ part ∈ k.rewritten.parts,
      part.DueTo palette.uniforms ty (palette.Available ty depth) := by
  obtain ⟨via, n, e, hwritten, hsigned⟩ := exists_written_of_disguise hrequest hrun
  have hall := hwritten.allDueTo href (Nat.le_refl _)
  rcases hsigned with heq | heq
  · rw [heq]
    exact hall
  · rw [heq]
    exact hall.neg

/-- With all weight on uniforms there is a reduced anchor, and each of its nodes is due to them. -/
theorem dueTo_available_reduced :
    ∃ k, outcome (disguise ⟨1, .only .uniform, [Uniform.sample]⟩ 0
        (.literal (.floatLiteral "12.0") (.scalar .f32))) (ChaCha.ofSeed 0) = .ok k ∧
      .call "trunc" [.identifier "x"] ∈ k.rewritten.parts ∧
      ∀ part ∈ k.rewritten.parts,
        part.DueTo [Uniform.sample] .f32
          (Available ⟨1, .only .uniform, [Uniform.sample]⟩ .f32 0) := by
  have hreads : Literal.ReadsAs (.floatLiteral "12.0") 12 :=
    ⟨.ofNat 12, by decide +kernel, by decide +kernel⟩
  obtain ⟨k, hrun, hpart⟩ : ∃ k, outcome (disguise ⟨1, .only .uniform, [Uniform.sample]⟩ 0
      (.literal (.floatLiteral "12.0") (.scalar .f32))) (ChaCha.ofSeed 0) = .ok k ∧
      .call "trunc" [.identifier "x"] ∈ k.rewritten.parts := by
    refine ⟨⟨.floatLiteral "12f", .binary .add (.construct .f32 [.binary .modulo
      (.construct .u32 [.call "abs" [.call "trunc" [.identifier "x"]]])
      (.intLiteral "16777217u")]) (.floatLiteral "10f")⟩, ?_⟩
    decide +kernel
  refine ⟨k, hrun, hpart, dueTo_available (.floatLiteral hreads rfl (by decide) (by decide)) ?_ hrun⟩
  intro u hu
  rw [List.mem_singleton.1 hu]
  rfl

end Palette

end Camouflage
