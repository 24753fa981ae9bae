import Camouflage.Proofs.Irrelevance
import Camouflage.Proofs.LiteralCodec
import Camouflage.Proofs.Magnitudes
import Camouflage.Random.ChaCha

/-!
# Types in lockstep

Where no uniform can be chosen, the type that is asked for has a say in how literals are spelled
and in nothing else. Two types of one domain make the same draws, choose the same strategies
and fail alike: the run for one is that for the other with its literals spelled anew
(`Expr.respell`). So it is with unsigned and signed words, the latter taken by their bits, and
with single precision and abstract floats.

Strategies pass expressions on without a look at them, so writing commutes with any function
on expressions that goes through operations (`Strategy.map_write`).
-/

namespace Camouflage

/-! ## Spelling in another type -/

/-- The literal of a type for the number of a literal. One without a number, or whose number
the type has no literal for, stays as it is. -/
def Literal.respell (ty : Scalar) (literal : Expr) : Expr :=
  match (do writeMagnitude (Anchor.magnitudeOf (← read literal)) ty : Except Failure Expr) with
  | .ok e => e
  | .error _ => literal

theorem Literal.respell_eq {ty : Scalar} {literal e : Expr} {m : UInt32}
    (hread : read literal = .ok (.ofNat m.toNat)) (hwrite : writeMagnitude m ty = .ok e) :
    respell ty literal = e := by
  rw [respell, hread]
  show (match writeMagnitude (Anchor.magnitudeOf (.ofNat m.toNat)) ty with
    | .ok e => e
    | .error _ => literal) = e
  rw [Anchor.magnitudeOf_ofNat m.toNat_lt, UInt32.ofNat_toNat, hwrite]

namespace Expr

mutual

/-- The expression with each literal of a number spelled as one of a type. References are left
alone. -/
def respell (ty : Scalar) : Expr → Expr
  | intLiteral text => Literal.respell ty (intLiteral text)
  | floatLiteral text => Literal.respell ty (floatLiteral text)
  | unary op target => unary op (target.respell ty)
  | binary op lhs rhs => binary op (lhs.respell ty) (rhs.respell ty)
  | call callee args => call callee (respellList ty args)
  | construct target args => construct target (respellList ty args)
  | paren inner => paren (inner.respell ty)
  | boolLiteral value => boolLiteral value
  | identifier name => identifier name
  | member receiver name => member receiver name
  | index target position => index target position
termination_by structural e => e

/-- The expressions of a list with their literals spelled as those of a type. -/
def respellList (ty : Scalar) : List Expr → List Expr
  | [] => []
  | e :: es => e.respell ty :: respellList ty es
termination_by structural es => es

end

theorem respell_binary (ty : Scalar) (op : BinaryOp) (lhs rhs : Expr) :
    (binary op lhs rhs).respell ty = binary op (lhs.respell ty) (rhs.respell ty) := by
  rw [respell]

end Expr

/-- Both forms with their literals spelled as those of a type. -/
def Disguise.respell (ty : Scalar) (k : Disguise) : Disguise :=
  ⟨k.literal.respell ty, k.rewritten.respell ty⟩

/-! ## Strategies -/

namespace Strategy

open Synth

variable {σ : Type} [WordSource σ] {f : Expr → Expr}
variable (hf : ∀ op lhs rhs, f (.binary op lhs rhs) = .binary op (f lhs) (f rhs))
variable (domain : Domain) (deeper : UInt32 → Synth σ Expr) (value : UInt32)
include hf

theorem map_inAnyOrder (op : BinaryOp) (lhs rhs : Expr) :
    f <$> (inAnyOrder op lhs rhs : Synth σ Expr) = inAnyOrder op (f lhs) (f rhs) := by
  unfold inAnyOrder
  rw [map_bind]
  refine bind_congr fun exchanged => ?_
  rw [map_ite, map_pure, map_pure, hf, hf]

theorem map_writeSum :
    f <$> writeSum domain deeper value = writeSum domain (fun n => f <$> deeper n) value := by
  simp only [writeSum, map_bind, bind_map_left, map_inAnyOrder hf]

theorem map_writeDifference :
    f <$> writeDifference domain deeper value =
      writeDifference domain (fun n => f <$> deeper n) value := by
  unfold writeDifference
  rw [map_bind]
  refine bind_congr fun part => ?_
  -- the checks look at the values alone
  dsimp only
  split
  · rfl
  · split
    · rfl
    · simp only [map_bind, bind_map_left, map_pure, hf]

theorem map_writeFactor :
    f <$> writeFactor deeper value = writeFactor (fun n => f <$> deeper n) value := by
  simp only [writeFactor, map_bind, bind_map_left]
  refine bind_congr fun divisor => bind_congr fun lhs => bind_congr fun rhs => ?_
  rw [← map_inAnyOrder hf, bind_map_left]
  simp only [map_ite, map_bind, map_pure, map_inAnyOrder hf]

theorem map_writeProduct :
    f <$> writeProduct domain deeper value =
      writeProduct domain (fun n => f <$> deeper n) value := by
  simp only [writeProduct, map_ite, map_bind, map_writeFactor hf, pure_bind]
  refine if_congr Iff.rfl (bind_congr fun wraps => ?_) rfl
  refine if_congr Iff.rfl (bind_congr fun divisor => bind_congr fun found => ?_) rfl
  cases found with
  | none => exact map_writeFactor hf deeper value
  | some quotient => simp only [map_bind, bind_map_left, map_inAnyOrder hf]

/-- A function that goes through operations can be applied to what a strategy writes or to all
that it writes it of. -/
theorem map_write {J : Type} [Membership Uniform J] [ShaderJob J] {s : Strategy} (hs : s ≠ .uniform)
    (uniforms : J) {via : Synthesizer} {ty ty' : Scalar} (hdomain : via.domain ty' = via.domain ty)
    (literal : Expr) :
    f <$> s.write via uniforms ty deeper literal value =
      s.write via uniforms ty' (fun n => f <$> deeper n) (f literal) value := by
  unfold write
  rw [hdomain]
  cases s with
  | plain => exact map_pure f literal
  | sum => exact map_writeSum hf _ deeper value
  | difference => exact map_writeDifference hf _ deeper value
  | product => exact map_writeProduct hf _ deeper value
  | uniform => exact absurd rfl hs

end Strategy

/-! ## Types of one domain -/

/-- Whether a synthesizer treats two types alike: they offer the same magnitudes, and the literals
of one are those of the other spelled anew. -/
structure Synthesizer.InStep (via : Synthesizer) (ty ty' : Scalar) : Prop where
  domain_eq : via.domain ty' = via.domain ty
  enter_eq : ∀ n, via.enter ty' n = Expr.respell ty' <$> via.enter ty n

namespace Synthesizer

variable {via : Synthesizer} {ty ty' : Scalar}

theorem inStep_of_write (hhandles : via.handles ty = true) (hhandles' : via.handles ty' = true)
    (hdomain : via.domain ty' = via.domain ty)
    (h : ∀ n ≤ (via.domain ty).largest, ∃ literal, Literal.writeMagnitude n ty = .ok literal ∧
      Literal.writeMagnitude n ty' = .ok (literal.respell ty')) :
    via.InStep ty ty' := by
  refine ⟨hdomain, fun n => ?_⟩
  rcases UInt32.lt_or_le (via.domain ty).largest n with hlt | hle
  · have hlt' : (via.domain ty').largest < n := by rwa [hdomain]
    rw [(enter_of_largest_lt hhandles hlt).2, (enter_of_largest_lt hhandles' hlt').2]
    rfl
  · have hle' : n ≤ (via.domain ty').largest := by rwa [hdomain]
    obtain ⟨literal, hwrite, hwrite'⟩ := h n hle
    rw [enter_eq_ok_iff.2 ⟨hhandles, hle, hwrite⟩, enter_eq_ok_iff.2 ⟨hhandles', hle', hwrite'⟩]
    rfl

theorem inStep_words : integer.InStep .u32 .i32 := by
  refine inStep_of_write rfl rfl rfl fun n _ => ?_
  obtain ⟨e, hwrite, -⟩ := Literal.write_i32 n.toInt32
  have hsize := n.toNat_lt
  have hinteger : Scalar.u32.isInteger = true := rfl
  have hrespell : Expr.respell .i32 (Literal.ofMagnitude n.toNat "u" .intLiteral) = e :=
    Literal.respell_eq (Literal.read_intLiteral hinteger (Nat.lt_trans hsize (by decide))) hwrite
  exact ⟨_, Literal.writeMagnitude_u32 n, hrespell ▸ hwrite⟩

/-- A word beyond the range of the signed type becomes the negative one with its bits. -/
example : (Expr.binary .add (.intLiteral "4294967295u") (.intLiteral "2147483648u")).respell .i32 =
    .binary .add (.unary .negate (.intLiteral "1i"))
      (.construct .i32 [.unary .negate (.intLiteral "2147483648")]) := by
  decide +kernel

theorem inStep_floats : float.InStep .f32 .abstractFloat := by
  refine inStep_of_write rfl rfl rfl fun n hn => ?_
  have hn : n.toNat ≤ 2 ^ 24 := UInt32.le_iff_toNat_le.1 hn
  have hwrite := Literal.writeMagnitude_abstractFloat hn
  have hfinite : (Binary.ofNat n.toNat : Double).isFinite = true :=
    Binary.isFinite_ofNat Format.double_spacious (Nat.le_trans hn (by decide))
  have hrespell : Expr.respell .abstractFloat (Literal.ofMagnitude n.toNat "f" .floatLiteral) =
      Literal.ofMagnitude n.toNat ".0" .floatLiteral :=
    Literal.respell_eq (Literal.read_single hfinite) hwrite
  exact ⟨_, Literal.writeMagnitude_f32 hn, hrespell ▸ hwrite⟩

/-- A magnitude is taken for both types, or refused alike. -/
theorem InStep.cases (h : via.InStep ty ty') (n : UInt32) :
    (∃ failure, via.enter ty n = .error failure ∧ via.enter ty' n = .error failure) ∨
      ∃ literal, via.enter ty n = .ok literal ∧ via.enter ty' n = .ok (literal.respell ty') := by
  rw [h.enter_eq n]
  cases via.enter ty n with
  | error failure => exact .inl ⟨failure, rfl, rfl⟩
  | ok literal => exact .inr ⟨literal, rfl, rfl⟩

end Synthesizer

/-! ## Runs -/

namespace Palette

open Synth

variable {J J' : Type} [Membership Uniform J] [ShaderJob J] [Membership Uniform J'] [ShaderJob J']
variable {palette : Palette J} {other : Palette J'} {via : Synthesizer} {ty ty' : Scalar}
variable {depth : Nat} {σ : Type} [WordSource σ]

omit [Membership Uniform J] [ShaderJob J] in
/-- Without a weight for uniforms the choice is the same for every type. -/
theorem choose_candidates_eq (hzero : palette.weights.weight .uniform depth = 0) (ty ty' : Scalar) :
    (Choice.choose (palette.candidates ty depth) : StateM σ (Option Strategy)) =
      Choice.choose (palette.candidates ty' depth) := by
  have hothers : ∀ ty : Scalar,
      (Choice.choose (palette.candidates ty depth) : StateM σ (Option Strategy)) =
        Choice.choose (palette.candidates .abstractInt depth) := by
    intro ty
    cases habstract : ty.isAbstract with
    | true =>
      unfold candidates
      rw [habstract]
      rfl
    | false =>
      have happend : palette.candidates ty depth =
          palette.candidates .abstractInt depth ++ [(.uniform, 0)] := by
        unfold candidates
        rw [habstract, ← hzero]
        rfl
      rw [happend, Choice.choose_append_zero]
  rw [hothers ty, hothers ty']

theorem map_express (h : via.InStep ty ty') {levels : Nat}
    (hlevels : levels ≤ palette.maxDepth - depth)
    (hzero : ∀ d, depth ≤ d → d < palette.maxDepth → palette.weights.weight .uniform d = 0)
    (n : UInt32) :
    Expr.respell ty' <$> (palette.express via ty levels depth n : Synth σ Expr) =
      palette.express via ty' levels depth n := by
  induction levels generalizing depth n with
  | zero =>
    rw [express, express]
    obtain ⟨failure, hfailure, hfailure'⟩ | ⟨literal, hliteral, hliteral'⟩ := h.cases n
    · rw [hfailure, hfailure']
      rfl
    · rw [hliteral, hliteral']
      rfl
  | succ levels ih =>
    have hnone := hzero depth (Nat.le_refl depth) (by omega)
    have hdeeper : (palette.express via ty' levels (depth + 1) : UInt32 → Synth σ Expr) =
        fun m => Expr.respell ty' <$> palette.express via ty levels (depth + 1) m :=
      funext fun m => (ih (by omega) (fun d hlow => hzero d (Nat.le_of_succ_le hlow)) m).symm
    rw [express_succ, express_succ]
    obtain ⟨failure, hfailure, hfailure'⟩ | ⟨literal, hliteral, hliteral'⟩ := h.cases n
    · rw [hfailure, hfailure']
      rfl
    · rw [hliteral, hliteral', ok_bind, ok_bind]
      dsimp only
      rw [map_bind, ← choose_candidates_eq hnone ty ty', hdeeper]
      refine Ends.bind_congr (choose_ends depth : Ends _ _ fun _ => True) ?_
      intro chosen hchosen
      cases chosen with
      | none => rfl
      | some s =>
        have hs : s ≠ .uniform := by
          rintro rfl
          exact hchosen.2 hnone
        exact Strategy.map_write (Expr.respell_binary ty') _ n hs palette.uniforms h.domain_eq
          literal

/-- A magnitude is disguised in lockstep, whatever the uniforms are. -/
theorem map_disguiseMagnitude (h : via.InStep ty ty') (hagrees : palette.AgreesWith other ty' depth)
    (hzero : ∀ d, depth ≤ d → d < palette.maxDepth → palette.weights.weight .uniform d = 0)
    (n : UInt32) :
    Disguise.respell ty' <$> (palette.disguiseMagnitude via depth ty n : Synth σ Disguise) =
      other.disguiseMagnitude via depth ty' n := by
  rw [← disguiseMagnitude_congr hagrees]
  unfold disguiseMagnitude
  rw [← map_express h (Nat.le_refl _) hzero]
  obtain ⟨failure, hfailure, hfailure'⟩ | ⟨literal, hliteral, hliteral'⟩ := h.cases n
  · rw [hfailure, hfailure']
    rfl
  · rw [hliteral, hliteral', ok_bind, ok_bind]
    simp only [map_bind, bind_map_left, map_pure, Disguise.respell]

/-! ## Requests -/

theorem takes_u32 (m : UInt32) : Scalar.u32.Takes m.toNat := by
  have hlt := m.toNat_lt
  have hsize : (UInt32.size : Int) = 2 ^ 32 := rfl
  refine ⟨rfl, Int.natCast_nonneg _, ?_⟩
  show (m.toNat : Int) ≤ UInt32.size - 1
  omega

/-- The signed word with the bits of a magnitude up to that of the least word needs no sign. -/
theorem takes_toInt32 {m : UInt32} (hm : m.toNat ≤ 2 ^ 31) :
    Scalar.i32.Takes m.toInt32.toInt ∧
      (0 ≤ m.toInt32.toInt ∨ (Scalar.i32 = .i32 ∧ m.toInt32.toInt = Int32.minValue.toInt)) ∧
      m.toNat = m.toInt32.toInt.natAbs := by
  rcases Nat.lt_or_eq_of_le hm with hlt | heq
  · have hbits : m.toInt32.toInt = m.toNat := by
      show m.toBitVec.toInt = m.toBitVec.toNat
      exact BitVec.toInt_eq_toNat_of_lt (by rw [UInt32.toNat_toBitVec]; omega)
    have hmin := Int32.toInt_minValue
    have hmax := Int32.toInt_maxValue
    rw [hbits]
    refine ⟨⟨rfl, ?_, ?_⟩, .inl (Int.natCast_nonneg _), (Int.natAbs_natCast _).symm⟩
    · show Int32.minValue.toInt ≤ (m.toNat : Int)
      omega
    · show (m.toNat : Int) ≤ Int32.maxValue.toInt
      omega
  · obtain rfl : m = 2147483648 := UInt32.toNat_inj.1 heq
    exact ⟨⟨rfl, by decide, by decide⟩, .inr ⟨rfl, rfl⟩, rfl⟩

/-- Two palettes with the same limit and weights, and none on uniforms, take the bits of a word
for an unsigned and for a signed integer in lockstep, as long as these need no sign, and so
they do a whole number for both float types. Whatever the one run ends in and leaves of the
source, so does the other, but for the spelling of literals. -/
theorem disguise_respell (hlimit : other.maxDepth = palette.maxDepth)
    (hweights : other.weights = palette.weights)
    (hzero : ∀ d, depth ≤ d → d < palette.maxDepth → palette.weights.weight .uniform d = 0) :
    (∀ (m : UInt32) (request request' : Request), m.toNat ≤ 2 ^ 31 →
      request.AsksFor .u32 m.toNat → request'.AsksFor .i32 m.toInt32.toInt →
      (other.disguise depth request' : Synth σ Disguise) =
        Disguise.respell .i32 <$> palette.disguise depth request) ∧
    (∀ (n : Int) (request request' : Request), 0 ≤ n → n ≤ 2 ^ 24 →
      request.AsksFor .f32 n → request'.AsksFor .abstractFloat n →
      (other.disguise depth request' : Synth σ Disguise) =
        Disguise.respell .abstractFloat <$> palette.disguise depth request) := by
  have hagrees : ∀ ty, palette.AgreesWith other ty depth := by
    intro ty
    refine ⟨hlimit.symm, fun d _ _ s => ?_, .inr (.inr hzero)⟩
    rw [hweights]
  constructor
  · intro m request request' hm h h'
    have htakes := takes_u32 m
    obtain ⟨htakes', hsign, hmagnitude⟩ := takes_toInt32 hm
    rw [disguise_of_asksFor h htakes (.inl (Int.natCast_nonneg _)) (Int.natAbs_natCast _).symm,
      disguise_of_asksFor h' htakes' hsign hmagnitude]
    exact (map_disguiseMagnitude Synthesizer.inStep_words (hagrees .i32) hzero m).symm
  · intro n request request' hlow hhigh h h'
    rw [disguise_of_asksFor_whole h rfl hlow hhigh, disguise_of_asksFor_whole h' rfl hlow hhigh]
    exact (map_disguiseMagnitude Synthesizer.inStep_floats (hagrees .abstractFloat) hzero _).symm

/-- Weighs all strategies alike, except for uniforms. -/
def unaided : Palette := ⟨2, .ofFn fun s => .constant (if s = .uniform then 0 else 1), []⟩

/-- The same with a uniform at hand. -/
def aided : Palette := ⟨2, unaided.weights, [.sample]⟩

/-- The least signed word and a whole number, the latter with a uniform at hand. -/
theorem disguise_respell_least :
    (unaided.disguise 0 (.integer (-2147483648) .i32) : Synth ChaCha Disguise) =
        Disguise.respell .i32 <$> unaided.disguise 0 (.integer 2147483648 .u32) ∧
      (outcome (unaided.disguise 0 (.integer 2147483648 .u32)) (ChaCha.ofSeed 0)).isOk = true ∧
      (aided.disguise 0 (.literal (.floatLiteral "12.0") (.scalar .abstractFloat)) :
          Synth ChaCha Disguise) =
        Disguise.respell .abstractFloat <$>
          unaided.disguise 0 (.literal (.intLiteral "12") (.scalar .f32)) ∧
      (outcome (unaided.disguise 0 (.literal (.intLiteral "12") (.scalar .f32)))
        (ChaCha.ofSeed 0)).isOk = true := by
  have hint : Literal.ReadsAs (.intLiteral "12") 12 :=
    ⟨.ofNat 12, by decide +kernel, by decide +kernel⟩
  have hfloat : Literal.ReadsAs (.floatLiteral "12.0") 12 :=
    ⟨.ofNat 12, by decide +kernel, by decide +kernel⟩
  have hzero : ∀ d, 0 ≤ d → d < unaided.maxDepth → unaided.weights.weight .uniform d = 0 :=
    fun _ _ _ => rfl
  obtain ⟨hwords, -⟩ := @disguise_respell _ _ _ _ _ _ unaided unaided 0 ChaCha _ rfl rfl hzero
  obtain ⟨-, hfloats⟩ := @disguise_respell _ _ _ _ _ _ unaided aided 0 ChaCha _ rfl rfl hzero
  exact ⟨hwords 2147483648 _ _ (by decide) (.integer rfl rfl) (.integer rfl rfl), by decide +kernel,
    hfloats 12 _ _ (by decide) (by decide) (.literal hint) (.literal hfloat), by decide +kernel⟩

end Palette

end Camouflage
