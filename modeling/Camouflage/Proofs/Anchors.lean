import Camouflage.Proofs.WrittenLiterals
import Camouflage.Synthesis.Synthesizer

/-!
# Anchors hold what they record

An anchor is an expression over one uniform, and nothing in it looks at any other
binding. What it is worth wherever the uniform holds its value is therefore what it is
worth in the evaluation that recorded its magnitude (`Anchor.evaluate_of_worth`).

None of the checks on an anchor fails. Every conversion of a concrete value to an
integer type gives an integer; the part of a single precision number in front of its
point is a number of that precision again; and a magnitude that was reduced as an
integer converts back without rounding.
-/

namespace Camouflage

/-- Of two computations in a row neither fails if both do not. -/
theorem exists_of_bind_eq_ok {ε α β : Type} {first : Except ε α} {next : α → Except ε β} {b : β}
    (h : first >>= next = .ok b) : ∃ a, first = .ok a ∧ next a = .ok b := by
  cases first with
  | ok a => exact ⟨a, rfl, h⟩
  | error e => cases h

/-- Whether a value is of a type that a buffer can hold. -/
def Value.IsConcrete (v : Value) : Prop := v.scalar.isAbstract = false

namespace Anchor

/-- An expression is worth `w` wherever the uniform is bound to `v`. -/
def Worth (u : Uniform) (v : Value) (e : Expr) (w : Value) : Prop :=
  ∀ b : Bindings, b.lookup u.reference = .ok v → e.eval b = .ok w

variable {u : Uniform} {v : Value}

theorem worth_reference (href : u.reference.isReference = true) : Worth u v u.reference v := by
  intro b hb
  rw [Expr.eval_of_isReference href, hb]

theorem Worth.construct {e : Expr} {w x : Value} {ty : Scalar} (h : Worth u v e w)
    (hconvert : w.convert ty = .ok x) : Worth u v (.construct ty [e]) x := by
  intro b hb
  rw [Expr.eval_construct (h b hb), hconvert]

theorem Worth.call {e : Expr} {w x : Value} {callee : String} (h : Worth u v e w)
    (hcall : Value.call callee [w] = .ok x) : Worth u v (.call callee [e]) x := by
  intro b hb
  rw [Expr.eval_call (h b hb), hcall]

theorem Worth.binary {op : BinaryOp} {lhs rhs : Expr} {x y z : Value} (hl : Worth u v lhs x)
    (hr : Worth u v rhs y) (happly : op.apply x y = .ok z) : Worth u v (.binary op lhs rhs) z := by
  intro b hb
  rw [Expr.eval_binary (hl b hb) (hr b hb), happly]

theorem evaluate_of_worth {e : Expr} {w : Value} (h : Worth u v e w) : evaluate e u v = .ok w := by
  rw [evaluate, h _ (Bindings.lookup_bind_self ..)]

/-! ## Integers -/

/-- A concrete value converts to a signed or unsigned word. -/
theorem exists_convert (hv : v.IsConcrete) {ty : Scalar} (hty : ty = .i32 ∨ ty = .u32) :
    ∃ w magnitude, v.convert ty = .ok w ∧ w.bits32? = some magnitude ∧
      Value.ofMagnitude? magnitude ty = some w := by
  rcases hty with rfl | rfl
  · have hword : ∀ n : Int32, n.toUInt32.toInt32 = n := fun _ => rfl
    cases v with
    | i32 n => exact ⟨_, _, rfl, rfl, by rw [Value.ofMagnitude?, hword]⟩
    | u32 n => exact ⟨_, _, rfl, rfl, by rw [Value.ofMagnitude?, hword]⟩
    | f32 x => exact ⟨_, _, rfl, rfl, by rw [Value.ofMagnitude?, hword]⟩
    | abstractInt n => cases hv
    | abstractFloat x => cases hv
  · cases v with
    | i32 n => exact ⟨_, _, rfl, rfl, rfl⟩
    | u32 n => exact ⟨_, _, rfl, rfl, rfl⟩
    | f32 x => exact ⟨_, _, rfl, rfl, rfl⟩
    | abstractInt n => cases hv
    | abstractFloat x => cases hv

theorem convert_scalar (hv : v.IsConcrete) : v.convert v.scalar = .ok v := by
  cases v with
  | i32 n => rfl
  | u32 n => rfl
  | f32 x => rfl
  | abstractInt n => cases hv
  | abstractFloat x => cases hv

/-- An anchor of an integer type exists for every concrete value, and is worth the word
that it records. -/
theorem ofInteger_spec (href : u.reference.isReference = true) (hv : v.IsConcrete) {ty : Scalar}
    (hty : ty = .i32 ∨ ty = .u32) :
    ∃ anchor w, ofInteger u v ty = .ok anchor ∧ Value.ofMagnitude? anchor.magnitude ty = some w ∧
      Worth u v anchor.expr w := by
  obtain ⟨w, magnitude, hconvert, hbits, hw⟩ := exists_convert hv hty
  have hworth : Worth u v (if v.scalar = ty then u.reference else .construct ty [u.reference]) w := by
    split
    · rename_i hscalar
      rw [← hscalar, convert_scalar hv] at hconvert
      obtain rfl := Except.ok.inj hconvert
      exact worth_reference href
    · exact (worth_reference href).construct hconvert
  refine ⟨⟨if v.scalar = ty then u.reference else .construct ty [u.reference], magnitude⟩, w, ?_,
    hw, hworth⟩
  rw [ofInteger, if_pos hty]
  show (evaluate _ u v >>= _) = _
  rw [evaluate_of_worth hworth]
  simp only [bind, Except.bind, hbits]

/-! ## Floats -/

theorem isPrecise_iff {x : Double} :
    isPrecise x = true ↔
      ∃ units h, x = .finite false units h ∧ units ≤ preciseLimit.toNat * Format.double.one := by
  have hlimit : preciseLimit.toNat ≤ 2 ^ Format.double.precision := by decide
  cases x with
  | nan => simp [isPrecise]
  | infinite negative => simp [isPrecise]
  | finite negative units h =>
    cases negative with
    | true => simp [isPrecise]
    | false =>
      have hcast : ((preciseLimit.toNat * Format.double.one : Nat) : Int) < units ↔
          preciseLimit.toNat * Format.double.one < units := Int.ofNat_lt
      simp only [isPrecise, Binary.ofNat_eq Format.double_spacious hlimit, Binary.less,
        Binary.position?, hcast]
      simp [h]

theorem magnitudeOf_ofNat {n : Nat} (hn : n < 2 ^ 32) :
    magnitudeOf (.ofNat n) = UInt32.ofNat n := by
  have hwide : n ≤ 2 ^ Format.double.precision := Nat.le_trans (Nat.le_of_lt hn) (by decide)
  have hsize : (UInt32.size : Int) = 2 ^ 32 := rfl
  have hword : (n : Int) ≤ UInt32.size - 1 := by omega
  rw [magnitudeOf, Binary.toIntClamped_ofNat Format.double_spacious hwide (by omega) hword,
    Int.toNat_natCast]

/-- A whole number in the precise range can be an anchor, and its magnitude is itself. -/
theorem isPrecise_ofNat {n : Nat} (hn : n ≤ preciseLimit.toNat) :
    isPrecise (.ofNat n) = true ∧ magnitudeOf (.ofNat n) = UInt32.ofNat n := by
  have hwide : n ≤ 2 ^ Format.double.precision := Nat.le_trans hn (by decide)
  refine ⟨?_, magnitudeOf_ofNat (Nat.lt_of_le_of_lt hn (by decide))⟩
  rw [isPrecise_iff, Binary.ofNat_eq Format.double_spacious hwide]
  exact ⟨_, _, rfl, Nat.mul_le_mul_right _ hn⟩

/-- What passes for an anchor stays within the precise range, whole or not. -/
theorem magnitudeOf_le_of_isPrecise {x : Double} (h : isPrecise x = true) :
    magnitudeOf x ≤ preciseLimit := by
  obtain ⟨units, hfits, rfl, hunits⟩ := isPrecise_iff.1 h
  have hlimit : preciseLimit.toNat = 2 ^ 24 := rfl
  have hsize : (UInt32.size : Int) = 2 ^ 32 := rfl
  have hclamped : ∀ n : Nat, n ≤ preciseLimit.toNat →
      UInt32.ofNat (max 0 (min (UInt32.size - 1 : Int) n)).toNat ≤ preciseLimit := by
    intro n hn
    rw [UInt32.le_iff_toNat_le, UInt32.toNat_ofNat_of_lt' (by rw [UInt32.size]; omega)]
    omega
  exact hclamped _ (Nat.div_le_of_le_mul (by rwa [Nat.mul_comm]))

theorem magnitude_le_of_ofSingle {ty : Scalar} {anchor : Anchor}
    (h : ofSingle u v ty = .ok anchor) : anchor.magnitude ≤ preciseLimit := by
  unfold ofSingle at h
  split at h
  · obtain ⟨base, -, h⟩ := exists_of_bind_eq_ok h
    obtain ⟨w, -, h⟩ := exists_of_bind_eq_ok h
    dsimp only at h
    split at h
    · rename_i hprecise
      rw [← Except.ok.inj h]
      exact magnitudeOf_le_of_isPrecise hprecise
    · obtain ⟨expr, -, h⟩ := exists_of_bind_eq_ok h
      obtain ⟨w, -, h⟩ := exists_of_bind_eq_ok h
      split at h
      · rename_i hprecise
        rw [← Except.ok.inj h]
        exact magnitudeOf_le_of_isPrecise hprecise
      · cases h
  · cases h

/-- Whether a number has no fraction, if it is finite. -/
def NoFraction (x : Single) : Prop :=
  ∀ negative units h, x = .finite negative units h → Format.single.one ∣ units

/-- A number of single precision without a fraction is precise only as a whole number in
the precise range. -/
theorem eq_ofNat_of_isPrecise {x : Single} (hx : NoFraction x)
    (hprecise : isPrecise (x.convert .double) = true) :
    ∃ n ≤ preciseLimit.toNat, x = .ofNat n := by
  have hwithin := Format.single_within_double
  cases x with
  | nan => cases hprecise
  | infinite negative => cases hprecise
  | finite negative units h =>
    obtain ⟨n, hn⟩ := hx negative units h rfl
    rw [Binary.convert_of_within hwithin, isPrecise_iff] at hprecise
    obtain ⟨_, _, heq, hle⟩ := hprecise
    injection heq with hsign hunits
    subst hsign
    have hlimit : n ≤ preciseLimit.toNat := by
      rw [← hunits, hn, hwithin.one_eq, Nat.mul_comm Format.single.one, Nat.mul_assoc,
        Nat.mul_comm Format.single.one] at hle
      exact Nat.le_of_mul_le_mul_right hle
        (Nat.mul_pos (Format.unitsOf_pos ..) Format.single.one_pos)
    refine ⟨n, hlimit, ?_⟩
    rw [Binary.ofNat_eq Format.single_spacious (Nat.le_trans hlimit (by decide))]
    exact Binary.finite_congr (by rw [hn, Nat.mul_comm])

theorem toDouble_ofNat {n : Nat} (hn : n ≤ preciseLimit.toNat) :
    (Value.f32 (.ofNat n)).toDouble = .ofNat n := by
  rw [Value.toDouble, Binary.convert_ofNat Format.single_spacious (Nat.le_trans hn (by decide))]

theorem le_of_isPrecise_ofNat {n : Nat} (hn : n ≤ 2 ^ Format.double.precision)
    (h : isPrecise (.ofNat n) = true) : n ≤ preciseLimit.toNat := by
  rw [isPrecise_iff, Binary.ofNat_eq Format.double_spacious hn] at h
  obtain ⟨_, _, heq, hle⟩ := h
  injection heq with _ hunits
  rw [← hunits] at hle
  exact Nat.le_of_mul_le_mul_right hle Format.double.one_pos

theorem noFraction_trunc (x : Single) : NoFraction x.trunc := by
  intro negative units h heq
  cases x with
  | nan => cases heq
  | infinite s => cases heq
  | finite s n hn =>
    simp only [Binary.trunc, Binary.ofUnits] at heq
    split at heq
    · injection heq with _ hunits
      exact ⟨_, by rw [← hunits, Nat.mul_comm]⟩
    · cases heq

theorem noFraction_of_isWhole {x : Single} (hx : x.isWhole = true) : NoFraction x := by
  rintro negative units h rfl
  exact Nat.dvd_of_mod_eq_zero (beq_iff_eq.1 hx)

/-- The uniform without its fraction has a value of the same type. -/
theorem base_spec (href : u.reference.isReference = true) (hv : v.IsConcrete) :
    ∃ e w, base u v = .ok e ∧ Worth u v e w ∧ w.scalar = v.scalar ∧
      ∀ x, w = .f32 x → NoFraction x := by
  cases v with
  | i32 n => exact ⟨_, _, rfl, worth_reference href, rfl, fun _ h => by cases h⟩
  | u32 n => exact ⟨_, _, rfl, worth_reference href, rfl, fun _ h => by cases h⟩
  | f32 x =>
    simp only [base]
    split
    · rename_i hwhole
      refine ⟨_, _, rfl, worth_reference href, rfl, ?_⟩
      intro y hy
      injection hy with hy
      exact hy ▸ noFraction_of_isWhole hwhole
    · refine ⟨_, .f32 x.trunc, rfl, (worth_reference href).call rfl, rfl, ?_⟩
      intro y hy
      injection hy with hy
      exact hy ▸ noFraction_trunc x
  | abstractInt n => cases hv
  | abstractFloat x => cases hv

/-- A value in the precise range is a whole number, and converts to it. -/
theorem exists_ofNat_of_isPrecise (hv : v.IsConcrete) (hwhole : ∀ x, v = .f32 x → NoFraction x)
    (hprecise : isPrecise v.toDouble = true) :
    ∃ n ≤ preciseLimit.toNat, v.toDouble = .ofNat n ∧ v.convert .f32 = .ok (.f32 (.ofNat n)) := by
  have hdouble : (2 : Nat) ^ 53 = 2 ^ Format.double.precision := rfl
  cases v with
  | i32 n =>
    have hlow := n.le_toInt
    have hhigh := n.toInt_lt
    by_cases hneg : n.toInt < 0
    -- a negative number has its sign set, and is not precise
    · have hfits := Format.double_spacious.fits (n := n.toInt.natAbs) (by omega)
      have hofInt : (Binary.ofInt n.toInt : Double) = .finite true _ hfits := by
        rw [Binary.ofInt, decide_eq_true hneg, Binary.ofQuotient_of_fits hfits]
      rw [Value.toDouble, hofInt] at hprecise
      cases hprecise
    · have hcast : n.toInt = (n.toInt.toNat : Nat) := by omega
      rw [Value.toDouble, hcast, Binary.ofInt_natCast] at hprecise
      refine ⟨n.toInt.toNat, le_of_isPrecise_ofNat (by omega) hprecise, ?_, ?_⟩
      · rw [Value.toDouble, ← Binary.ofInt_natCast, ← hcast]
      · rw [Value.convert, ← Binary.ofInt_natCast, ← hcast]
  | u32 n =>
    have hlt := n.toNat_lt
    exact ⟨n.toNat, le_of_isPrecise_ofNat (by omega) hprecise, rfl, rfl⟩
  | f32 x =>
    obtain ⟨n, hn, hx⟩ := eq_ofNat_of_isPrecise (hwhole x rfl) hprecise
    rw [hx]
    exact ⟨n, hn, toDouble_ofNat hn, rfl⟩
  | abstractInt n => cases hv
  | abstractFloat x => cases hv

/-- A concrete value has a magnitude, which converts to an unsigned word. The magnitude of
the least signed word is negative, but its conversion wraps. -/
theorem exists_magnitude {w : Value} (hw : w.IsConcrete) :
    ∃ x word, w.abs = .ok x ∧ x.convert .u32 = .ok (.u32 word) := by
  cases w with
  | i32 n => exact ⟨_, _, rfl, rfl⟩
  | u32 n => exact ⟨_, _, rfl, rfl⟩
  | f32 y => exact ⟨_, _, rfl, rfl⟩
  | abstractInt n => cases hw
  | abstractFloat y => cases hw

/-- The reduction of a value is the remainder of its magnitude, as a whole number. -/
theorem reduced_spec {e : Expr} {w x : Value} {word : UInt32} (he : Worth u v e w)
    (habs : w.abs = .ok x) (hword : x.convert .u32 = .ok (.u32 word)) :
    ∃ expr, reduced e = .ok expr ∧ Worth u v expr (.f32 (.ofNat (word % 16777217).toNat)) := by
  obtain ⟨modulus, hwrite, hmodulus⟩ := Literal.write_u32 16777217
  refine ⟨.construct .f32 [.binary .modulo (.construct .u32 [.call "abs" [e]]) modulus], ?_, ?_⟩
  · rw [reduced]
    show (Literal.write (16777217 : UInt32).toUInt64.toInt64 .u32 >>= _) = _
    rw [hwrite]
    rfl
  · have hcall : Value.call "abs" [w] = .ok x := habs
    have hremainder : BinaryOp.modulo.apply (.u32 word) (.u32 16777217) =
        .ok (.u32 (word % 16777217)) := rfl
    exact (((he.call hcall).construct hword).binary (fun b _ => hmodulus b) hremainder).construct rfl

theorem mod_le_preciseLimit (word : UInt32) : (word % 16777217).toNat ≤ preciseLimit.toNat := by
  have hlt : (word % 16777217).toNat < 16777217 := by
    rw [UInt32.toNat_mod]
    exact Nat.mod_lt _ (by decide)
  have hlimit : preciseLimit.toNat = 16777216 := rfl
  omega

section OfSingle

variable {e : Expr} {w : Value}

/-- An anchor that is precise as it is. -/
theorem ofSingle_of_isPrecise (hbase : base u v = .ok e) (he : Worth u v e w)
    (hprecise : isPrecise w.toDouble = true) :
    ofSingle u v .f32 =
      .ok ⟨if v.scalar = .f32 then e else .construct .f32 [e], magnitudeOf w.toDouble⟩ := by
  simp only [ofSingle, hbase, evaluate_of_worth he, hprecise, bind, Except.bind, if_true]

/-- An anchor that is precise once it is reduced. -/
theorem ofSingle_of_not_isPrecise {expr : Expr} {n : Nat} (hbase : base u v = .ok e)
    (he : Worth u v e w) (hprecise : ¬ isPrecise w.toDouble = true)
    (hreduced : reduced e = .ok expr) (hworth : Worth u v expr (.f32 (.ofNat n)))
    (hn : n ≤ preciseLimit.toNat) : ofSingle u v .f32 = .ok ⟨expr, UInt32.ofNat n⟩ := by
  simp only [ofSingle, hbase, evaluate_of_worth he, hprecise, bind, Except.bind, if_true, hreduced,
    evaluate_of_worth hworth, toDouble_ofNat hn, (isPrecise_ofNat hn).1, (isPrecise_ofNat hn).2]
  rfl

/-- Where it is precise as it is, an anchor converts to single precision at most. -/
theorem worth_of_isPrecise (he : Worth u v e w) (hw : w.IsConcrete) (hscalar : w.scalar = v.scalar)
    {n : Nat} (hconvert : w.convert .f32 = .ok (.f32 (.ofNat n))) :
    Worth u v (if v.scalar = .f32 then e else .construct .f32 [e]) (.f32 (.ofNat n)) := by
  split
  · rename_i hsingle
    rw [← hscalar] at hsingle
    have hself := convert_scalar hw
    rw [hsingle, hconvert] at hself
    rw [Except.ok.inj hself]
    exact he
  · exact he.construct hconvert

end OfSingle

/-- An anchor of single precision exists for every concrete value, and is worth the
number in the precise range that it records. -/
theorem ofSingle_spec (href : u.reference.isReference = true) (hv : v.IsConcrete) :
    ∃ anchor, ofSingle u v .f32 = .ok anchor ∧ anchor.magnitude ≤ preciseLimit ∧
      Worth u v anchor.expr (.f32 (.ofNat anchor.magnitude.toNat)) := by
  obtain ⟨e, w, hbase, he, hscalar, hwhole⟩ := base_spec href hv
  have hw : w.IsConcrete := by rw [Value.IsConcrete, hscalar]; exact hv
  have hsize : preciseLimit.toNat < UInt32.size := by decide
  have hlimit : ∀ n ≤ preciseLimit.toNat, UInt32.ofNat n ≤ preciseLimit ∧
      (UInt32.ofNat n).toNat = n := by
    intro n hn
    have hnat : (UInt32.ofNat n).toNat = n := UInt32.toNat_ofNat_of_lt' (by omega)
    exact ⟨by rw [UInt32.le_iff_toNat_le, hnat]; exact hn, hnat⟩
  -- what is not in the precise range yet is after the reduction
  by_cases hprecise : isPrecise w.toDouble = true
  · obtain ⟨n, hn, hdouble, hconvert⟩ := exists_ofNat_of_isPrecise hw hwhole hprecise
    obtain ⟨hle, hnat⟩ := hlimit n hn
    have hmagnitude : magnitudeOf w.toDouble = UInt32.ofNat n := by
      rw [hdouble, (isPrecise_ofNat hn).2]
    refine ⟨_, ofSingle_of_isPrecise hbase he hprecise, ?_⟩
    rw [hmagnitude, hnat]
    exact ⟨hle, worth_of_isPrecise he hw hscalar hconvert⟩
  · obtain ⟨x, word, habs, hword⟩ := exists_magnitude hw
    obtain ⟨expr, hreduced, hworth⟩ := reduced_spec he habs hword
    have hn := mod_le_preciseLimit word
    obtain ⟨hle, hnat⟩ := hlimit _ hn
    exact ⟨_, ofSingle_of_not_isPrecise hbase he hprecise hreduced hworth hn, hle,
      by rw [hnat]; exact hworth⟩

end Anchor

/-! ## Contents of uniforms -/

namespace Literal

theorem isInternal_of_ofText {text : String} {read? : List Char → Option Double}
    {failure : Failure} (h : Literal.ofText text read? = .error failure) :
    failure.isInternal = false := by
  unfold Literal.ofText at h
  split at h
  · cases h
  · rw [← Except.error.inj h]
    rfl

/-- Reading a literal fails only for what the literal is. -/
theorem isInternal_of_read {e : Expr} {failure : Failure} (h : Literal.read e = .error failure) :
    failure.isInternal = false := by
  fun_induction Literal.read e with
  | case1 text => exact isInternal_of_ofText h
  | case2 text => exact isInternal_of_ofText h
  | case3 target ih =>
    cases hread : Literal.read target with
    | ok number => rw [hread] at h; cases h
    | error inner =>
      rw [hread] at h
      obtain rfl := Except.error.inj h
      exact ih hread
  | case4 inner ih => exact ih h
  | case5 args => rw [← Except.error.inj h]; rfl
  | case6 ty arg _ ih => exact ih h
  | case7 e => rw [← Except.error.inj h]; rfl

end Literal

namespace Uniform

variable {u : Uniform} {v : Value}

theorem integerContents_ok {number : Double} {ofInt? : Int → Option Value}
    (h : u.integerContents number ofInt? = .ok v) :
    number.isWhole = true ∧
      ofInt? (number.toIntClamped Int64.minValue.toInt Int64.maxValue.toInt) = some v := by
  unfold integerContents at h
  split at h
  · rename_i hwhole
    split at h
    · rename_i hsome
      rw [← Except.ok.inj h]
      exact ⟨hwhole, hsome⟩
    · cases h
  · cases h

theorem integerContents_error {number : Double} {ofInt? : Int → Option Value} {failure : Failure}
    (h : u.integerContents number ofInt? = .error failure) : failure = u.unsupported := by
  unfold integerContents at h
  split at h
  · split at h
    · cases h
    · exact (Except.error.inj h).symm
  · exact (Except.error.inj h).symm

theorem singleContents_ok (h : u.singleContents = .ok v) :
    ∃ w, u.literal.eval .empty = .ok w ∧ w.concretize? .f32 = some v := by
  unfold singleContents at h
  split at h
  · rename_i w heval
    split at h
    · rename_i hsome
      rw [← Except.ok.inj h]
      exact ⟨w, heval, hsome⟩
    · cases h
  · cases h

theorem singleContents_error {failure : Failure} (h : u.singleContents = .error failure) :
    failure = u.unsupported := by
  unfold singleContents at h
  split at h
  · split at h
    · cases h
    · exact (Except.error.inj h).symm
  · exact (Except.error.inj h).symm

/-- What a uniform is taken to hold is of its type, which is concrete. -/
theorem scalar_of_contents (h : u.contents = .ok v) : v.scalar = u.ty ∧ v.IsConcrete := by
  obtain ⟨number, -, h⟩ := exists_of_bind_eq_ok h
  split at h
  · rename_i hty
    obtain ⟨w, -, rfl⟩ := Option.map_eq_some_iff.1 (integerContents_ok h).2
    exact ⟨hty.symm, rfl⟩
  · rename_i hty
    obtain ⟨w, -, rfl⟩ := Option.map_eq_some_iff.1 (integerContents_ok h).2
    exact ⟨hty.symm, rfl⟩
  · rename_i hty
    obtain ⟨w, -, hw⟩ := singleContents_ok h
    have hscalar := Value.scalar_of_concretize? hw
    exact ⟨by rw [hscalar, hty], by rw [Value.IsConcrete, hscalar]; rfl⟩
  · cases h
  · cases h
  · cases h

/-- A uniform of a type that a buffer can have fails only for what it holds. -/
theorem isInternal_of_contents (hty : u.ty.isAbstract = false) {failure : Failure}
    (h : u.contents = .error failure) : failure.isInternal = false := by
  simp only [contents, bind, Except.bind] at h
  split at h
  · rename_i hread
    rw [← Except.error.inj h]
    exact Literal.isInternal_of_read hread
  · split at h
    · rw [integerContents_error h]; rfl
    · rw [integerContents_error h]; rfl
    · rw [singleContents_error h]; rfl
    · rw [← Except.error.inj h]; rfl
    · rename_i habstract
      rw [habstract] at hty
      cases hty
    · rename_i habstract
      rw [habstract] at hty
      cases hty

end Uniform

/-! ## Anchors over uniforms -/

namespace Synthesizer

open Anchor (Worth)

variable {via : Synthesizer} {u : Uniform} {ty : Scalar}

/-- Once the contents of a uniform are known, each synthesizer has an anchor over it of every
concrete type that it handles, worth its magnitude. -/
theorem anchor_spec (href : u.reference.isReference = true) {v : Value}
    (hcontents : u.contents = .ok v) (hty : ty.isAbstract = false) (hhandles : via.handles ty = true) :
    ∃ anchor w, via.anchor u ty = .ok anchor ∧
      Value.ofMagnitude? anchor.magnitude ty = some w ∧ Worth u v anchor.expr w := by
  have hv := (Uniform.scalar_of_contents hcontents).2
  unfold Synthesizer.anchor
  rw [hcontents]
  cases via with
  | integer =>
    have hword : ty = .i32 ∨ ty = .u32 := by
      cases ty with
      | i32 => exact .inl rfl
      | u32 => exact .inr rfl
      | abstractInt => cases hty
      | _ => cases hhandles
    exact Anchor.ofInteger_spec href hv hword
  | float =>
    obtain rfl : ty = .f32 := by
      cases ty with
      | f32 => rfl
      | abstractFloat => cases hty
      | _ => cases hhandles
    obtain ⟨anchor, hanchor, -, hworth⟩ := Anchor.ofSingle_spec href hv
    exact ⟨anchor, _, hanchor, rfl, hworth⟩

/-- The only failure of an anchor is that the contents are not known. -/
theorem contents_error_of_anchor (href : u.reference.isReference = true)
    (hty : ty.isAbstract = false) (hhandles : via.handles ty = true) {failure : Failure}
    (h : via.anchor u ty = .error failure) : u.contents = .error failure := by
  cases hcontents : u.contents with
  | ok v =>
    obtain ⟨anchor, _, hanchor, -⟩ := anchor_spec href hcontents hty hhandles
    rw [hanchor] at h
    cases h
  | error inner =>
    rw [Synthesizer.anchor, hcontents] at h
    exact congrArg Except.error (Except.error.inj h)

/-- An anchor is worth its magnitude. -/
theorem worth_of_anchor (href : u.reference.isReference = true) (hty : ty.isAbstract = false)
    (hhandles : via.handles ty = true) {anchor : Anchor} (h : via.anchor u ty = .ok anchor) :
    ∃ v w, u.contents = .ok v ∧ Value.ofMagnitude? anchor.magnitude ty = some w ∧
      Worth u v anchor.expr w := by
  cases hcontents : u.contents with
  | ok v =>
    obtain ⟨found, w, hfound, hw, hworth⟩ := anchor_spec href hcontents hty hhandles
    rw [hfound] at h
    obtain rfl := Except.ok.inj h
    exact ⟨v, w, rfl, hw, hworth⟩
  | error failure =>
    rw [Synthesizer.anchor, hcontents] at h
    cases h

/-- Anchors stay within the domain, also over uniforms that are no references. -/
theorem magnitude_le_largest {anchor : Anchor} (h : via.anchor u ty = .ok anchor) :
    anchor.magnitude ≤ (via.domain ty).largest := by
  obtain ⟨v, -, h⟩ := exists_of_bind_eq_ok h
  cases via with
  | integer => exact Domain.le_largest (domain_integer_ne ty) _
  | float => exact Anchor.magnitude_le_of_ofSingle h

end Synthesizer

/-! ## What a type draws on -/

variable {J : Type} [Membership Uniform J]

/-- Where a type can draw on uniforms, they are references. -/
def Scalar.RefersTo (ty : Scalar) (uniforms : J) : Prop :=
  ty.isAbstract = false → ∀ u ∈ uniforms, u.reference.isReference = true

/-- Where a type can draw on uniforms, they are references that are bound to what synthesis
takes them to hold. -/
structure Bindings.Serves (b : Bindings) (ty : Scalar) (uniforms : J) : Prop where
  refersTo : ty.RefersTo uniforms
  lookup_eq : ty.isAbstract = false → ∀ u ∈ uniforms, ∀ v, u.contents = .ok v →
    b.lookup u.reference = .ok v

/-- An abstract type draws on none. -/
theorem Bindings.serves_of_isAbstract {b : Bindings} {ty : Scalar} {uniforms : J}
    (h : ty.isAbstract = true) : b.Serves ty uniforms := by
  have hconcrete : ty.isAbstract ≠ false := by
    rw [h]
    decide
  exact ⟨fun hty => absurd hty hconcrete, fun hty => absurd hty hconcrete⟩

end Camouflage
