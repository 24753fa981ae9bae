import Camouflage.Proofs.LiteralValues

/-!
# Contents that are read through conversions

The literal of a uniform may convert its number from type to type. Synthesis reads an integer
uniform without the conversions, and the shader makes them. Both come to the same integer as
long as no float on the way is rounded or clamped (`Expr.keepsNumber`): a conversion between
words, and a negation of one, keeps the number modulo two to the power of 32, so every part of
the literal is worth the number that is read from it, up to such a multiple
(`Expr.represents_of_read`), and a word is known by that.

Main statement: `Uniform.contents_eq_value`. A uniform of single precision is evaluated in the
first place and needs no condition; for integers the condition is needed
(`Uniform.contents_not_value`).
-/

namespace Camouflage

namespace Value

variable {v w : Value} {k l n : Int}

/-- Whether a conversion keeps the number, if it is one from a float or to a float. -/
def convertsExactly (v : Value) (ty : Scalar) : Bool :=
  match v.convert ty with
  | .ok w => !(v.scalar.isFloat || ty.isFloat) || v.toDouble.same w.toDouble
  | .error _ => true

/-- Whether a value stands for an integer as far as a word can, which is up to a multiple of two
to the power of 32. -/
def Represents (v : Value) (n : Int) : Prop :=
  ∃ m, v.toDouble.whole? = some m ∧ m % 2 ^ 32 = n % 2 ^ 32

theorem toDouble_of_integer? (hv : v.integer? = some n) : v.toDouble = .ofInt n := by
  cases v with
  | i32 a => rw [← Option.some.inj hv, toDouble]
  | u32 a => rw [← Option.some.inj hv, toDouble, Binary.ofInt_natCast]
  | abstractInt a => rw [← Option.some.inj hv, toDouble]
  | f32 x => cases hv
  | abstractFloat x => cases hv

theorem whole?_toDouble_of_integer? (hv : v.integer? = some n) (hn : n.natAbs ≤ 2 ^ 32) :
    v.toDouble.whole? = some n := by
  have hwide : 2 ^ 32 ≤ 2 ^ Format.double.precision := by decide
  rw [toDouble_of_integer? hv, Binary.whole?_ofInt Format.double_spacious (Nat.le_trans hn hwide)]

/-- A word is known by its type and its number modulo two to the power of 32. -/
theorem eq_of_emod_eq (hconcrete : v.IsConcrete) (hscalar : v.scalar = w.scalar)
    (hv : v.integer? = some k) (hw : w.integer? = some l) (h : k % 2 ^ 32 = l % 2 ^ 32) :
    v = w := by
  refine eq_of_integer? hscalar hv (hw.trans (congrArg some ?_))
  cases v with
  | i32 a =>
    cases w with
    | i32 c =>
      have ha := a.le_toInt
      have ha' := a.toInt_lt
      have hc := c.le_toInt
      have hc' := c.toInt_lt
      obtain rfl := Option.some.inj hv
      obtain rfl := Option.some.inj hw
      omega
    | _ => cases hscalar
  | u32 a =>
    cases w with
    | u32 c =>
      have ha := a.toNat_lt
      have hc := c.toNat_lt
      obtain rfl := Option.some.inj hv
      obtain rfl := Option.some.inj hw
      omega
    | _ => cases hscalar
  | abstractInt a => cases hconcrete
  | f32 x => cases hv
  | abstractFloat x => cases hv

/-! ## One step -/

theorem Represents.negate (h : v.Represents n) (hw : UnaryOp.negate.apply v = .ok w) :
    w.Represents (-n) := by
  obtain ⟨m, hm, hmod⟩ := h
  cases v with
  | i32 a =>
    obtain rfl := Except.ok.inj hw
    have hlow := a.le_toInt
    have hhigh := a.toInt_lt
    have hlow' := (-a).le_toInt
    have hhigh' := (-a).toInt_lt
    have hneg : (-a).toInt % 2 ^ 32 = -a.toInt % 2 ^ 32 := by
      rw [Int32.toInt_neg]
      exact Int.bmod_emod
    rw [whole?_toDouble_of_integer? rfl (by omega)] at hm
    obtain rfl := Option.some.inj hm
    exact ⟨(-a).toInt, whole?_toDouble_of_integer? rfl (by omega), by omega⟩
  | u32 a => cases hw
  | abstractInt a =>
    obtain ⟨word, hword, rfl⟩ := exact_eq_ok_iff.1 hw
    refine ⟨-m, ?_, by omega⟩
    have hrounds := (Binary.rounds_ofInt (f := .double) a.toInt).neg
    rw [toDouble, hword, (Binary.rounds_ofInt _).whole?_eq hrounds]
    exact Binary.whole?_neg hm
  | f32 x =>
    obtain rfl := Except.ok.inj hw
    rw [toDouble, Binary.whole?_convert Format.single_within_double] at hm
    refine ⟨-m, ?_, by omega⟩
    rw [toDouble, Binary.whole?_convert Format.single_within_double, Binary.whole?_neg hm]
  | abstractFloat x =>
    obtain rfl := Except.ok.inj hw
    exact ⟨-m, Binary.whole?_neg hm, by omega⟩

/-- The integer of a word is its bits, up to a multiple. -/
theorem exists_integer?_of_bits32? {bits : UInt32} (hconcrete : v.IsConcrete)
    (hbits : v.bits32? = some bits) :
    ∃ k, v.integer? = some k ∧ k.natAbs ≤ 2 ^ 32 ∧ k % 2 ^ 32 = bits.toNat := by
  have hlt := bits.toNat_lt
  cases v with
  | i32 a =>
    obtain rfl := Option.some.inj hbits
    have hword := toInt_toInt32 a.toUInt32
    change a.toInt = _ at hword
    exact ⟨a.toInt, rfl, by omega, by omega⟩
  | u32 a =>
    obtain rfl := Option.some.inj hbits
    exact ⟨a.toNat, rfl, by omega, by omega⟩
  | abstractInt a => cases hconcrete
  | f32 x => cases hbits
  | abstractFloat x => cases hbits

/-- A conversion between words keeps the bits. -/
theorem bits32?_convert {ty : Scalar} (hconcrete : v.IsConcrete) (hv : v.scalar.isFloat = false)
    (hty : ty.isFloat = false) (hw : v.convert ty = .ok w) :
    w.IsConcrete ∧ ∃ bits, v.bits32? = some bits ∧ w.bits32? = some bits := by
  cases v with
  | i32 a =>
    cases ty <;> cases hw
    · exact ⟨rfl, _, rfl, rfl⟩
    · exact ⟨rfl, _, rfl, rfl⟩
    · cases hty
  | u32 a =>
    cases ty <;> cases hw
    · exact ⟨rfl, _, rfl, rfl⟩
    · exact ⟨rfl, _, rfl, rfl⟩
    · cases hty
  | abstractInt a => cases hconcrete
  | f32 x => cases hv
  | abstractFloat x => cases hv

/-- What fits a word is the same integer there. -/
theorem integer?_convert_abstractInt {a : Int64} {ty : Scalar} (hty : ty.isFloat = false)
    (hw : (abstractInt a).convert ty = .ok w) : w.integer? = some a.toInt ∧ w.IsConcrete := by
  have hfits : ∀ target : Scalar, target.isInteger = true → target.isAbstract = false →
      (abstractInt a).concretize target = .ok w → w.integer? = some a.toInt ∧ w.IsConcrete := by
    intro target hinteger hconcrete hok
    unfold concretize at hok
    split at hok
    · rename_i found hfound
      obtain rfl := Except.ok.inj hok
      exact ⟨integer?_of_concretize? hinteger hfound,
        by rw [IsConcrete, scalar_of_concretize? hfound, hconcrete]⟩
    · cases hok
  cases ty with
  | i32 => exact hfits .i32 rfl rfl hw
  | u32 => exact hfits .u32 rfl rfl hw
  | f32 => cases hty
  | abstractFloat => cases hty
  | _ => cases hw

/-- A conversion from an integer to a word keeps the number up to a multiple. -/
theorem integer?_convert {ty : Scalar} (hv : v.scalar.isFloat = false) (hty : ty.isFloat = false)
    (hw : v.convert ty = .ok w) :
    ∃ k l, v.integer? = some k ∧ w.integer? = some l ∧ k % 2 ^ 32 = l % 2 ^ 32 ∧
      k.natAbs ≤ 2 ^ 32 ∧ l.natAbs ≤ 2 ^ 32 := by
  by_cases hconcrete : v.IsConcrete
  · obtain ⟨hwconcrete, bits, hvbits, hwbits⟩ := bits32?_convert hconcrete hv hty hw
    obtain ⟨k, hk, hkrange, hkbits⟩ := exists_integer?_of_bits32? hconcrete hvbits
    obtain ⟨l, hl, hlrange, hlbits⟩ := exists_integer?_of_bits32? hwconcrete hwbits
    exact ⟨k, l, hk, hl, hkbits.trans hlbits.symm, hkrange, hlrange⟩
  · cases v with
    | abstractInt a =>
      obtain ⟨hinteger, hwconcrete⟩ := integer?_convert_abstractInt hty hw
      have hrange := integer?_range hwconcrete hinteger
      exact ⟨a.toInt, a.toInt, rfl, hinteger, rfl, by omega, by omega⟩
    | abstractFloat x => cases hv
    | _ => exact absurd rfl hconcrete

theorem Represents.convert {ty : Scalar} (h : v.Represents n) (hw : v.convert ty = .ok w)
    (hexact : v.convertsExactly ty = true) : w.Represents n := by
  obtain ⟨m, hm, hmod⟩ := h
  by_cases hfloat : (v.scalar.isFloat || ty.isFloat) = true
  · simp only [convertsExactly, hw, hfloat, Bool.not_true, Bool.false_or] at hexact
    exact ⟨m, Binary.whole?_of_same hm hexact, hmod⟩
  · rw [Bool.or_eq_true, not_or, Bool.not_eq_true, Bool.not_eq_true] at hfloat
    obtain ⟨k, l, hk, hl, hkl, hkn, hln⟩ := integer?_convert hfloat.1 hfloat.2 hw
    rw [whole?_toDouble_of_integer? hk hkn] at hm
    obtain rfl := Option.some.inj hm
    exact ⟨l, whole?_toDouble_of_integer? hl hln, by omega⟩

end Value

/-! ## A whole literal -/

namespace Expr

/-- Whether no float of a literal is rounded or clamped: float literals are worth what is read
from them, and conversions from floats and to floats keep the number. -/
def keepsNumber : Expr → Bool
  | floatLiteral text =>
    match Value.ofFloatChars? text.toList, Literal.ofFloatChars? text.toList with
    | some v, some x => x.same v.toDouble
    | _, _ => true
  | unary _ target => target.keepsNumber
  | paren inner => inner.keepsNumber
  | construct ty [arg] =>
    arg.keepsNumber &&
      match arg.eval .empty with
      | .ok v => v.convertsExactly ty
      | .error _ => true
  | _ => true
termination_by structural e => e

/-- What a literal is worth represents the number that is read from it, if that is whole. -/
theorem represents_of_read {e : Expr} {x : Double} {v : Value} {n : Int}
    (hx : Literal.read e = .ok x) (hv : e.eval .empty = .ok v) (hkeeps : e.keepsNumber = true)
    (hn : x.whole? = some n) : v.Represents n := by
  fun_induction Literal.read e generalizing x v n with
  | case1 text =>
    obtain ⟨k, hk, hrounds⟩ := Literal.rounds_of_ofIntChars? (ofLiteral_eq_ok hv) (ofText_eq_ok hx)
    refine ⟨n, ?_, rfl⟩
    rw [Value.toDouble_of_integer? hk, (Binary.rounds_ofInt k).whole?_eq hrounds, hn]
  | case2 text =>
    rw [keepsNumber, ofLiteral_eq_ok hv, ofText_eq_ok hx] at hkeeps
    exact ⟨n, Binary.whole?_of_same hn hkeeps, rfl⟩
  | case3 target ih =>
    obtain ⟨w, hw, happly⟩ := eval_unary_eq_ok hv
    obtain ⟨y, hread, rfl⟩ := read_neg_eq_ok hx
    have hy := Binary.whole?_neg hn
    rw [Binary.neg_neg] at hy
    rw [keepsNumber] at hkeeps
    have hrepresents := (ih hread hw hkeeps hy).negate happly
    rwa [Int.neg_neg] at hrepresents
  | case4 inner ih =>
    rw [eval_paren] at hv
    rw [keepsNumber] at hkeeps
    exact ih hx hv hkeeps hn
  | case5 args => cases hx
  | case6 ty arg _ ih =>
    obtain ⟨w, hw, hconvert⟩ := eval_construct_eq_ok hv
    rw [keepsNumber, hw, Bool.and_eq_true] at hkeeps
    exact (ih hx hw hkeeps.1 hn).convert hconvert hkeeps.2
  | case7 e => cases hx

end Expr

/-! ## Contents -/

namespace Uniform

variable {u : Uniform} {v w : Value}

/-- The integer that synthesis reads is that of the value, since both are words that differ by
a multiple at most. -/
theorem eq_of_integerContents {x : Double} (hread : Literal.read u.literal = .ok x)
    (hwhole : x.isWhole = true) (hkeeps : u.literal.keepsNumber = true)
    (hty : u.ty.isInteger = true) (hscalar : v.scalar = u.ty) (hconcrete : v.IsConcrete)
    (hv : v.integer? = some (x.toIntClamped Int64.minValue.toInt Int64.maxValue.toInt))
    (hvalue : u.value? = some w) : v = w := by
  have hmin := Int64.toInt_minValue
  have hmax := Int64.toInt_maxValue
  obtain ⟨n, hn⟩ := Binary.isWhole_iff.1 hwhole
  obtain ⟨y, heval, hconcretize⟩ := value?_eq_some_iff.1 hvalue
  obtain ⟨k, hy, hk⟩ := Value.integer?_of_concretize?_eq hty hconcretize
  have hwscalar := Value.scalar_of_concretize? hconcretize
  have hwconcrete : w.IsConcrete := by
    rw [Value.IsConcrete, hwscalar, ← hscalar]
    exact hconcrete
  have hkrange := Value.integer?_range hwconcrete hk
  have hvrange := Value.integer?_range hconcrete hv
  rw [Binary.toIntClamped_eq_of_whole? hn] at hv hvrange
  obtain ⟨m, hm, hmod⟩ := Expr.represents_of_read hread heval hkeeps hn
  rw [Value.whole?_toDouble_of_integer? hy (by omega)] at hm
  obtain rfl := Option.some.inj hm
  exact Value.eq_of_emod_eq hconcrete (hscalar.trans hwscalar.symm) hv hk (by omega)

/-- What synthesis takes a uniform to hold is what the shader holds: always if it is of single
precision, and for an integer if no float in its literal is rounded or clamped. -/
theorem contents_eq_value (hcontents : u.contents = .ok v) (hvalue : u.value? = some w)
    (hkeeps : u.ty = .f32 ∨ u.literal.keepsNumber = true) : v = w := by
  obtain ⟨hscalar, hconcrete⟩ := scalar_of_contents hcontents
  obtain ⟨x, hread, hcontents⟩ := exists_of_bind_eq_ok hcontents
  split at hcontents
  · rename_i hty
    obtain ⟨hwhole, hsome⟩ := integerContents_ok hcontents
    obtain ⟨word, hword, rfl⟩ := Option.map_eq_some_iff.1 hsome
    have hkept := hkeeps.resolve_left (by rw [hty]; decide)
    refine eq_of_integerContents hread hwhole hkept (by rw [hty]; rfl) hscalar hconcrete ?_ hvalue
    rw [Value.integer?, int32?_eq_some_iff.1 hword]
  · rename_i hty
    obtain ⟨hwhole, hsome⟩ := integerContents_ok hcontents
    obtain ⟨word, hword, rfl⟩ := Option.map_eq_some_iff.1 hsome
    have hkept := hkeeps.resolve_left (by rw [hty]; decide)
    refine eq_of_integerContents hread hwhole hkept (by rw [hty]; rfl) hscalar hconcrete ?_ hvalue
    rw [Value.integer?, uint32?_eq_some_iff.1 hword]
  · rename_i hty
    obtain ⟨y, heval, hy⟩ := singleContents_ok hcontents
    rw [← hty] at hy
    rw [value?_eq_some_iff.2 ⟨y, heval, hy⟩] at hvalue
    exact Option.some.inj hvalue
  · cases hcontents
  · cases hcontents
  · cases hcontents

/-- A uniform whose literal negates a number that a float holds, and wraps it twice. -/
def wrapped : Uniform :=
  ⟨.identifier "x", .construct .i32 [.construct .u32 [.neg (.construct .i32 [.floatLiteral "7.0"])]],
    .i32⟩

theorem contents_eq_value_wrapped :
    wrapped.contents = .ok (.i32 (-7)) ∧ wrapped.literal.keepsNumber = true ∧
      ∃ w, wrapped.value? = some w ∧ .i32 (-7) = w := by
  have hcontents : wrapped.contents = .ok (.i32 (-7)) := by decide +kernel
  have hkeeps : wrapped.literal.keepsNumber = true := by decide +kernel
  have hvalue : wrapped.value? = some (.i32 (-7)) := by decide +kernel
  exact ⟨hcontents, hkeeps, _, hvalue, contents_eq_value hcontents hvalue (.inr hkeeps)⟩

/-- A number that the shader rounds to single precision on the way to a word, and synthesis
does not. -/
theorem contents_not_value :
    Uniform.contents ⟨.member (.identifier "u") "x", .construct .u32 [.floatLiteral "16777217.0"],
        .u32⟩ = .ok (.u32 16777217) ∧
      Uniform.value? ⟨.member (.identifier "u") "x", .construct .u32 [.floatLiteral "16777217.0"],
        .u32⟩ = some (.u32 16777216) ∧
      Value.u32 16777217 ≠ .u32 16777216 :=
  ⟨by decide +kernel, by decide +kernel, by decide⟩

end Uniform

end Camouflage
