import Camouflage.Proofs.Magnitudes
import Camouflage.Random.ChaCha

/-!
# The shape that a single strategy gives

With all weight on one strategy there is nothing to choose, and the shape of what is written is
known before anything is drawn. Every level below the limit is one of the strategy, and the
literals are all at the limit. Sums and differences give complete trees of one operator
(`Expr.Complete`), products give them too, except that a node may have a remainder beside it, which
is again of the shape of one level less (`Expr.Products`).

No such run fails: something can be chosen at every level, and it is not a uniform, whose contents
may be of no use (`Palette.shape_of_only`).
-/

namespace Camouflage

/-! ## Shapes -/

namespace Expr

/-- Whether an expression is a complete tree of a height, of one operator over leaves. -/
inductive Complete (op : BinaryOp) (leaf : Expr → Prop) : Nat → Expr → Prop
  | leaf {e} : leaf e → Complete op leaf 0 e
  | node {height lhs rhs} : Complete op leaf height lhs → Complete op leaf height rhs →
      Complete op leaf (height + 1) (binary op lhs rhs)

/-- Whether an expression is a product at every level of a height, with or without a remainder on
either side of it. -/
inductive Products (leaf : Expr → Prop) : Nat → Expr → Prop
  | leaf {e} : leaf e → Products leaf 0 e
  | product {height lhs rhs} : Products leaf height lhs → Products leaf height rhs →
      Products leaf (height + 1) (binary .multiply lhs rhs)
  | remainder {height lhs rhs rest} (exchanged : Bool) : Products leaf height lhs →
      Products leaf height rhs → Products leaf height rest →
      Products leaf (height + 1) (ordered exchanged .add (binary .multiply lhs rhs) rest)

/-- The operator of a node with two operands. -/
def operator? : Expr → Option BinaryOp
  | binary op _ _ => some op
  | _ => none

/-- The operators of an expression, each as often as it occurs. -/
def operators (e : Expr) : List BinaryOp := e.parts.filterMap operator?

variable {op : BinaryOp} {leaf : Expr → Prop} {height : Nat} {e lhs rhs rest : Expr}

theorem operators_binary (op : BinaryOp) (lhs rhs : Expr) :
    (binary op lhs rhs).operators = op :: (lhs.operators ++ rhs.operators) := by
  have hroot : operator? (binary op lhs rhs) = some op := rfl
  rw [operators, parts_binary, List.filterMap_cons_some hroot, List.filterMap_append]
  rfl

theorem operators_eq_nil (h : ∀ op lhs rhs, binary op lhs rhs ∉ e.parts) : e.operators = [] := by
  refine List.filterMap_eq_nil_iff.2 fun part hpart => ?_
  cases part with
  | binary op lhs rhs => exact absurd hpart (h op lhs rhs)
  | _ => rfl

namespace Complete

theorem ordered (hl : lhs.Complete op leaf height) (hr : rhs.Complete op leaf height)
    (exchanged : Bool) : (Expr.ordered exchanged op lhs rhs).Complete op leaf (height + 1) := by
  cases exchanged with
  | true => exact .node hr hl
  | false => exact .node hl hr

/-- A complete tree has two to the power of its height inner nodes, less one, and they are all of
its operator. -/
theorem operators_eq (h : e.Complete op leaf height) (hleaf : ∀ x, leaf x → x.operators = []) :
    e.operators = List.replicate (2 ^ height - 1) op := by
  induction h with
  | leaf h => exact hleaf _ h
  | @node height lhs rhs _ _ ihl ihr =>
    have hcount : 2 ^ (height + 1) - 1 = 2 ^ height - 1 + (2 ^ height - 1) + 1 := by
      have hpos := Nat.two_pow_pos height
      rw [Nat.pow_succ]
      omega
    rw [operators_binary, ihl, ihr, List.replicate_append_replicate, hcount, List.replicate_succ]

end Complete

namespace Products

theorem ordered (hl : lhs.Products leaf height) (hr : rhs.Products leaf height) (exchanged : Bool) :
    (Expr.ordered exchanged .multiply lhs rhs).Products leaf (height + 1) := by
  cases exchanged with
  | true => exact .product hr hl
  | false => exact .product hl hr

theorem ordered_remainder (hl : lhs.Products leaf height) (hr : rhs.Products leaf height)
    (hrest : rest.Products leaf height) (exchanged exchanged' : Bool) :
    (Expr.ordered exchanged' .add (Expr.ordered exchanged .multiply lhs rhs) rest).Products leaf
      (height + 1) := by
  cases exchanged with
  | true => exact .remainder exchanged' hr hl hrest
  | false => exact .remainder exchanged' hl hr hrest

end Products

end Expr

namespace Literal

/-- Whether an expression is the literal of a magnitude in a type. -/
def IsMagnitude (ty : Scalar) (e : Expr) : Prop := ∃ m, writeMagnitude m ty = .ok e

theorem IsMagnitude.operators_eq {ty : Scalar} {e : Expr} (h : IsMagnitude ty e) :
    e.operators = [] := by
  obtain ⟨m, hwrite⟩ := h
  exact Expr.operators_eq_nil (binary_not_mem_parts_of_writeMagnitude hwrite)

end Literal

/-! ## Nothing to choose -/

theorem WeightTable.weight_only (s s' : Strategy) (depth : Nat) :
    (only s).weight s' depth = if s' = s then 1 else 0 := by
  rw [weight, only, schedule_ofFn]
  rfl

namespace Palette

open Synth

variable {J : Type} {palette : Palette J} {via : Synthesizer} {ty : Scalar} {levels depth : Nat}
  {n : UInt32} {e : Expr} {s s' : Strategy}

theorem eq_of_enabled (hweights : palette.weights = .only s) (h : palette.Enabled ty depth s') :
    s' = s := by
  have hweight := h.2
  rw [hweights, WeightTable.weight_only] at hweight
  exact Decidable.byContradiction fun hne => hweight (if_neg hne)

theorem enabled_of_only (hweights : palette.weights = .only s) (hs : s ≠ .uniform) :
    palette.Enabled ty depth s := by
  refine ⟨fun _ => hs, ?_⟩
  rw [hweights, WeightTable.weight_only, if_pos rfl]
  decide

/-! ## One level and all levels -/

variable [Membership Uniform J]

theorem Written.isMagnitude (h : palette.Written via ty 0 depth n e) : Literal.IsMagnitude ty e :=
  ⟨n, (Synthesizer.enter_eq_ok_iff.1 h).2.2⟩

/-- A level is written by the only strategy. -/
theorem Written.form_of_only (hweights : palette.weights = .only s)
    (h : palette.Written via ty (levels + 1) depth n e) :
    ∃ literal, Literal.writeMagnitude n ty = .ok literal ∧
      Strategy.Form via palette.uniforms ty (palette.Written via ty levels (depth + 1))
        literal s n e := by
  obtain ⟨literal, s', hliteral, henabled, hform⟩ := h
  rw [eq_of_enabled hweights henabled] at hform
  exact ⟨literal, (Synthesizer.enter_eq_ok_iff.1 hliteral).2.2, hform⟩

theorem Written.complete_of_sum (hweights : palette.weights = .only .sum)
    (h : palette.Written via ty levels depth n e) :
    e.Complete .add (Literal.IsMagnitude ty) levels := by
  induction levels generalizing depth n e with
  | zero => exact .leaf h.isMagnitude
  | succ levels ih =>
    obtain ⟨literal, -, hform⟩ := h.form_of_only hweights
    cases hform with
    | sum exchanged _ hl hr => exact (ih hl).ordered (ih hr) exchanged

theorem Written.complete_of_difference (hweights : palette.weights = .only .difference)
    (h : palette.Written via ty levels depth n e) :
    e.Complete .subtract (Literal.IsMagnitude ty) levels := by
  induction levels generalizing depth n e with
  | zero => exact .leaf h.isMagnitude
  | succ levels ih =>
    obtain ⟨literal, -, hform⟩ := h.form_of_only hweights
    cases hform with
    | difference _ hl hr => exact .node (ih hl) (ih hr)

theorem Written.products_of_product (hweights : palette.weights = .only .product)
    (h : palette.Written via ty levels depth n e) :
    e.Products (Literal.IsMagnitude ty) levels := by
  induction levels generalizing depth n e with
  | zero => exact .leaf h.isMagnitude
  | succ levels ih =>
    obtain ⟨literal, -, hform⟩ := h.form_of_only hweights
    cases hform with
    | wrapped exchanged _ _ hl hr => exact (ih hl).ordered (ih hr) exchanged
    | factor exchanged _ _ hl hr => exact (ih hl).ordered (ih hr) exchanged
    | remainder exchanged exchanged' _ hl hr hrest =>
      exact (ih hl).ordered_remainder (ih hr) (ih hrest) exchanged exchanged'

theorem Written.literal_of_plain (hweights : palette.weights = .only .plain)
    (h : palette.Written via ty levels depth n e) : Literal.writeMagnitude n ty = .ok e := by
  cases levels with
  | zero => exact (Synthesizer.enter_eq_ok_iff.1 h).2.2
  | succ levels =>
    obtain ⟨literal, hwrite, hform⟩ := h.form_of_only hweights
    cases hform with
    | plain => exact hwrite

/-! ## Requests -/

variable {σ : Type}

/-- Whether a run succeeds with an expression of a shape, behind a sign if the number asked for
needs one. -/
def Gives (run : Synth σ Disguise) (source : σ) (ty : Scalar) (n : Int) (shape : Expr → Prop) :
    Prop :=
  ∃ k e, outcome run source = .ok k ∧ k.rewritten = (if ty.NeedsSign n then e.neg else e) ∧ shape e

theorem Gives.mono {run : Synth σ Disguise} {source : σ} {n : Int} {shape shape' : Expr → Prop}
    (h : Gives run source ty n shape) (hshape : ∀ e, shape e → shape' e) :
    Gives run source ty n shape' := by
  obtain ⟨k, e, hout, hrewritten, he⟩ := h
  exact ⟨k, e, hout, hrewritten, hshape e he⟩

variable [WordSource σ] [ShaderJob J]

/-- A run with nothing to choose but one strategy, other than that for uniforms, succeeds. -/
theorem gives_written_of_only (hs : s ≠ .uniform) (hweights : palette.weights = .only s)
    {request : Request} {n : Int} (h : request.AsksFor ty n) (hadmits : ty.Admits n) (depth : Nat)
    (source : σ) :
    Gives (palette.disguise depth request) source ty n fun e => ∃ via m, m.toNat = n.natAbs ∧
      palette.Written via ty (palette.maxDepth - depth) depth m e := by
  obtain ⟨via, m, hhandles, hle, hm⟩ := hadmits.exists_magnitude
  obtain ⟨dress, hrun, hdress⟩ : ∃ dress : Disguise → Disguise,
      (palette.disguise depth request : Synth σ Disguise) =
        dress <$> palette.disguiseMagnitude via depth ty m ∧
      ∀ k, (dress k).rewritten = if ty.NeedsSign n then k.rewritten.neg else k.rewritten :=
    disguise_of_admits h hadmits hhandles hm depth
  -- neither of the two ways to fail is open: a strategy can be chosen, and it needs no uniform
  have hwritten : Ends (palette.express via ty (palette.maxDepth - depth) depth m : Synth σ Expr)
      (palette.Written via ty (palette.maxDepth - depth) depth m) fun _ => False := by
    refine express_written_or hhandles ?_ ?_ hle
    · intro d _ _ hnone
      exact hnone s (enabled_of_only hweights hs)
    · intro d _ _ huniform
      exact absurd (eq_of_enabled hweights huniform).symm hs
  have hends := (disguiseMagnitude_of_express hhandles hle hwritten).map dress
  rw [← hrun] at hends
  cases hout : outcome (palette.disguise depth request) source with
  | error failure => exact (hends.of_error hout).elim
  | ok k =>
    obtain ⟨positive, hpositive, rfl⟩ := hends.of_ok hout
    exact ⟨_, positive.rewritten, hout, hdress positive, via, m, hm, hpositive⟩

/-- With all weight on one strategy, every request for a number that is admitted succeeds, whatever
the uniforms are, with an expression whose shape is that of the strategy over the levels that are
left: a complete tree of sums or of differences, products with or without remainders, or the
literal of the magnitude. -/
theorem shape_of_only {request : Request} {n : Int} (h : request.AsksFor ty n)
    (hadmits : ty.Admits n) (maxDepth depth : Nat) (uniforms : J) (source : σ) :
    Gives (disguise ⟨maxDepth, .only .sum, uniforms⟩ depth request) source ty n
        (fun e => e.Complete .add (Literal.IsMagnitude ty) (maxDepth - depth) ∧
          e.operators = List.replicate (2 ^ (maxDepth - depth) - 1) .add) ∧
      Gives (disguise ⟨maxDepth, .only .difference, uniforms⟩ depth request) source ty n
        (fun e => e.Complete .subtract (Literal.IsMagnitude ty) (maxDepth - depth) ∧
          e.operators = List.replicate (2 ^ (maxDepth - depth) - 1) .subtract) ∧
      Gives (disguise ⟨maxDepth, .only .product, uniforms⟩ depth request) source ty n
        (fun e => e.Products (Literal.IsMagnitude ty) (maxDepth - depth)) ∧
      Gives (disguise ⟨maxDepth, .only .plain, uniforms⟩ depth request) source ty n
        (fun e => ∃ m, m.toNat = n.natAbs ∧ Literal.writeMagnitude m ty = .ok e) := by
  refine ⟨?_, ?_, ?_, ?_⟩
  · refine (gives_written_of_only (by decide) rfl h hadmits depth source).mono ?_
    rintro e ⟨via, m, -, hwritten⟩
    have hcomplete := hwritten.complete_of_sum rfl
    exact ⟨hcomplete, hcomplete.operators_eq fun _ hleaf => hleaf.operators_eq⟩
  · refine (gives_written_of_only (by decide) rfl h hadmits depth source).mono ?_
    rintro e ⟨via, m, -, hwritten⟩
    have hcomplete := hwritten.complete_of_difference rfl
    exact ⟨hcomplete, hcomplete.operators_eq fun _ hleaf => hleaf.operators_eq⟩
  · refine (gives_written_of_only (by decide) rfl h hadmits depth source).mono ?_
    rintro e ⟨via, m, -, hwritten⟩
    exact hwritten.products_of_product rfl
  · refine (gives_written_of_only (by decide) rfl h hadmits depth source).mono ?_
    rintro e ⟨via, m, hm, hwritten⟩
    exact ⟨m, hm, hwritten.literal_of_plain rfl⟩

/-- A negative word, over two levels of sums, and a whole number with a uniform at hand, over one
level of a product. -/
theorem shape_of_only_two :
    (∃ k, ∃ e : Expr,
      outcome (disguise (⟨2, .only .sum, ⟨⟩⟩ : Palette NoUniforms) 0 (.integer (-7) .i32))
        (ChaCha.ofSeed 0) = .ok k ∧
      k.rewritten = e.neg ∧ e.Complete .add (Literal.IsMagnitude .i32) 2 ∧
      e.operators = [.add, .add, .add]) ∧
    ∃ k, outcome (disguise ⟨2, .only .product, [Uniform.sample]⟩ 1
        (.literal (.floatLiteral "12.0") (.scalar .f32))) (ChaCha.ofSeed 0) = .ok k ∧
      k.rewritten.Products (Literal.IsMagnitude .f32) 1 := by
  have hseven : (Request.integer (-7) .i32).AsksFor .i32 (-7) := .integer rfl rfl
  have htakes : Scalar.i32.Admits (-7) := .inl ⟨rfl, by decide, by decide⟩
  have htwelve : (Request.literal (.floatLiteral "12.0") (.scalar .f32)).AsksFor .f32 12 :=
    .literal ⟨.ofNat 12, by decide +kernel, by decide +kernel⟩
  have hprecise : Scalar.f32.Admits 12 := .inr ⟨rfl, by decide, by decide⟩
  constructor
  · obtain ⟨k, e, hout, hrewritten, hcomplete, hoperators⟩ :=
      (shape_of_only hseven htakes 2 0 (⟨⟩ : NoUniforms) (ChaCha.ofSeed 0)).1
    rw [if_pos (by decide)] at hrewritten
    exact ⟨k, e, hout, hrewritten, hcomplete, hoperators⟩
  · obtain ⟨k, e, hout, hrewritten, hproducts⟩ :=
      (shape_of_only htwelve hprecise 2 1 [Uniform.sample] (ChaCha.ofSeed 0)).2.2.1
    rw [if_neg (by decide)] at hrewritten
    exact ⟨k, hout, hrewritten ▸ hproducts⟩

end Palette

end Camouflage
