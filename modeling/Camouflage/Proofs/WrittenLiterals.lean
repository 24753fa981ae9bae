import Camouflage.Evaluation
import Camouflage.Literal.Writer
import Camouflage.Proofs.Whole

/-!
# Written literals are worth what they denote

A numeral of plain digits is taken apart by neither reader: it has no sign, no mark of
another radix, no point and no exponent, so what stands behind it is its suffix alone.
An integer literal is therefore worth the abstract integer of its
number, concretized to the type of its suffix, and a float literal the whole number
itself.
-/

namespace Camouflage

namespace Numeral

/-! ## Plain digits -/

theorem isDigit_of_mem_ofNat {n : Nat} {c : Char} (h : c ∈ ofNat n) : c.isDigit = true :=
  Nat.isDigit_of_mem_toDigits (by decide) (by decide) h

/-- A numeral begins with a digit. -/
theorem exists_ofNat_eq_cons (n : Nat) : ∃ c cs, ofNat n = c :: cs ∧ c.isDigit = true := by
  cases h : ofNat n with
  | nil => exact absurd h Nat.toDigits_ne_nil
  | cons c cs => exact ⟨c, cs, rfl, isDigit_of_mem_ofNat (h ▸ List.mem_cons_self)⟩

theorem unsigned?_ofNat (n : Nat) : unsigned? 10 (ofNat n) = some n := by
  have hread := digits?_ofNat n
  obtain ⟨c, cs, hcons, hdigit⟩ := exists_ofNat_eq_cons n
  rw [hcons] at hread ⊢
  unfold unsigned?
  split
  · rename_i heq
    obtain ⟨rfl, -⟩ := List.cons.inj heq
    cases hdigit
  · exact hread

theorem signed?_ofNat (n : Nat) : signed? 10 (ofNat n) = some (n : Int) := by
  have hread := unsigned?_ofNat n
  obtain ⟨c, cs, hcons, hdigit⟩ := exists_ofNat_eq_cons n
  rw [hcons] at hread ⊢
  unfold signed?
  split
  · rename_i heq
    obtain ⟨rfl, -⟩ := List.cons.inj heq
    cases hdigit
  · rw [hread]
    rfl

/-- Without its letter there is no mark of the radix. -/
theorem hexadecimal?_eq_none {cs : List Char} (hlower : 'x' ∉ cs) (hupper : 'X' ∉ cs) :
    hexadecimal? cs = none := by
  unfold hexadecimal?
  split
  · exact absurd (List.mem_cons_of_mem _ List.mem_cons_self) hlower
  · exact absurd (List.mem_cons_of_mem _ List.mem_cons_self) hupper
  · rfl

/-- A numeral has no letters. -/
theorem not_mem_ofNat {c : Char} (hc : c.isDigit = false) (n : Nat) : c ∉ ofNat n := by
  intro hmem
  rw [isDigit_of_mem_ofNat hmem] at hc
  cases hc

theorem hexadecimal?_ofNat (n : Nat) : hexadecimal? (ofNat n) = none :=
  hexadecimal?_eq_none (not_mem_ofNat rfl n) (not_mem_ofNat rfl n)

/-- A numeral does not end in a letter. -/
theorem stripLast?_ofNat {c : Char} (hc : c.isDigit = false) (n : Nat) :
    stripLast? c (ofNat n) = none := by
  cases h : stripLast? c (ofNat n) with
  | none => rfl
  | some body =>
    have hmem : c ∈ ofNat n := by simp [stripLast?_eq_some_iff.1 h]
    exact absurd hmem (not_mem_ofNat hc n)

theorem toLower_of_isDigit {c : Char} (h : c.isDigit = true) : c.toLower = c := by
  simp only [Char.isDigit, Bool.and_eq_true, decide_eq_true_eq] at h
  unfold Char.toLower
  split
  · rename_i hupper
    exact absurd (UInt32.le_trans hupper.1 h.2) (by decide)
  · rfl

/-- What begins with a digit has no sign and is no word. -/
theorem decimal?_cons_of_isDigit {c : Char} (hc : c.isDigit = true) (cs : List Char) :
    decimal? (c :: cs) = significand? false (c :: cs) := by
  have hword : ∀ d ds, d.isDigit = false → (c :: cs).map Char.toLower ≠ d :: ds := by
    rintro d ds hd heq
    rw [List.map_cons, toLower_of_isDigit hc] at heq
    obtain ⟨rfl, -⟩ := List.cons.inj heq
    rw [hc] at hd
    cases hd
  have hmagnitude : magnitude? false (c :: cs) = significand? false (c :: cs) := by
    have hinf : (c :: cs).map Char.toLower ≠ "inf".toList := hword 'i' _ rfl
    have hinfinity : (c :: cs).map Char.toLower ≠ "infinity".toList := hword 'i' _ rfl
    have hnan : (c :: cs).map Char.toLower ≠ "nan".toList := hword 'n' _ rfl
    simp only [magnitude?]
    rw [if_neg (not_or.2 ⟨hinf, hinfinity⟩), if_neg hnan]
  unfold decimal?
  split
  · rename_i heq
    obtain ⟨rfl, -⟩ := List.cons.inj heq
    cases hc
  · rename_i heq
    obtain ⟨rfl, -⟩ := List.cons.inj heq
    cases hc
  · exact hmagnitude

theorem decimal?_ofNat (n : Nat) : decimal? (ofNat n) = some (.finite false n 0) := by
  have hread := digits?_ofNat n
  have hdigits : ∀ c ∈ ofNat n, c.isDigit = true := fun _ => isDigit_of_mem_ofNat
  have htake : (ofNat n ++ []).takeWhile Char.isDigit = ofNat n ++ [] :=
    List.takeWhile_append_of_pos hdigits
  have hdrop : (ofNat n ++ []).dropWhile Char.isDigit = [] :=
    List.dropWhile_append_of_pos hdigits
  rw [List.append_nil] at htake hdrop
  obtain ⟨c, cs, hcons, hdigit⟩ := exists_ofNat_eq_cons n
  rw [hcons, decimal?_cons_of_isDigit hdigit, ← hcons]
  simp [significand?, htake, hdrop, hread, exponent?]

theorem digits?_ofNat_zero (n : Nat) : digits? 10 (ofNat n ++ ['0']) = some (n * 10) := by
  have hdigits : ∀ c ∈ ofNat n ++ ['0'], c.isDigit = true := by
    intro c hc
    rcases List.mem_append.1 hc with hc | hc
    · exact isDigit_of_mem_ofNat hc
    · rw [List.mem_singleton.1 hc]
      rfl
  have hvalue : Nat.ofDigitChars 10 (ofNat n ++ ['0']) 0 = n * 10 := by
    rw [Nat.ofDigitChars_append, ofNat, Nat.ofDigitChars_toDigits (by decide) (by decide)]
    simp [Nat.ofDigitChars_cons, Nat.mul_comm]
  unfold digits?
  split
  · simp_all
  · rw [digitsFrom?_of_all_isDigit hdigits, hvalue]

theorem decimal?_ofNat_point (n : Nat) :
    decimal? (ofNat n ++ ['.', '0']) = some (.finite false (n * 10) (-1)) := by
  have hread := digits?_ofNat_zero n
  have hdigits : ∀ c ∈ ofNat n, c.isDigit = true := fun _ => isDigit_of_mem_ofNat
  have htake : (ofNat n ++ ['.', '0']).takeWhile Char.isDigit = ofNat n := by
    rw [List.takeWhile_append_of_pos hdigits]
    exact List.append_nil _
  have hdrop : (ofNat n ++ ['.', '0']).dropWhile Char.isDigit = ['.', '0'] := by
    rw [List.dropWhile_append_of_pos hdigits]
    rfl
  obtain ⟨c, cs, hcons, hdigit⟩ := exists_ofNat_eq_cons n
  rw [hcons, List.cons_append, decimal?_cons_of_isDigit hdigit, ← List.cons_append, ← hcons]
  simp [significand?, htake, hdrop, hread, exponent?]

end Numeral

/-- What a magnitude stands for in a type: the word with its bits, or the whole number. -/
def Value.ofMagnitude? (n : UInt32) : Scalar → Option Value
  | .bool => none
  | .i32 => some (.i32 n.toInt32)
  | .u32 => some (.u32 n)
  | .abstractInt => some (.abstractInt n.toUInt64.toInt64)
  | .f32 => some (.f32 (.ofNat n.toNat))
  | .abstractFloat => some (.abstractFloat (.ofNat n.toNat))

namespace Literal

variable {b : Bindings}

/-! ## Integers -/

/-- The suffix of the literals of an integer type. -/
def intSuffix : Scalar → String
  | .i32 => "i"
  | .u32 => "u"
  | _ => ""

theorem splitIntSuffix_intSuffix {ty : Scalar} (hty : ty.isInteger = true) (n : Nat) :
    Value.splitIntSuffix (Numeral.ofNat n ++ (intSuffix ty).toList) = (ty, Numeral.ofNat n) := by
  have hi := Numeral.stripLast?_ofNat (show 'i'.isDigit = false from rfl) n
  have hu := Numeral.stripLast?_ofNat (show 'u'.isDigit = false from rfl) n
  cases ty with
  | i32 =>
    show Value.splitIntSuffix (Numeral.ofNat n ++ ['i']) = _
    rw [Value.splitIntSuffix, Numeral.stripLast?_append]
  | u32 =>
    have hother : Numeral.stripLast? 'i' (Numeral.ofNat n ++ ['u']) = none := by
      simp [Numeral.stripLast?]
    show Value.splitIntSuffix (Numeral.ofNat n ++ ['u']) = _
    rw [Value.splitIntSuffix, hother, Numeral.stripLast?_append]
  | abstractInt =>
    show Value.splitIntSuffix (Numeral.ofNat n ++ []) = _
    rw [List.append_nil, Value.splitIntSuffix, hi, hu]
  | bool => cases hty
  | f32 => cases hty
  | abstractFloat => cases hty

/-- An integer literal is worth the abstract integer of its number, concretized. -/
theorem eval_intLiteral (ty : Scalar) (hty : ty.isInteger = true) {n : Nat} (word : Int64)
    (hword : word.toInt = n) {v : Value} (hv : (Value.abstractInt word).concretize? ty = some v) :
    (ofMagnitude n (intSuffix ty) .intLiteral).eval b = .ok v := by
  have hread : Value.ofIntChars? (Numeral.ofNat n ++ (intSuffix ty).toList) = some v := by
    rw [Value.ofIntChars?, splitIntSuffix_intSuffix hty]
    simp [Numeral.hexadecimal?_ofNat, Numeral.signed?_ofNat, int64?_eq_some_iff.2 hword, hv]
  rw [ofMagnitude, Expr.eval, Value.ofLiteral, String.toList_append, String.toList_ofList, hread]

theorem toInt_toUInt64_toInt64 (w : UInt32) : w.toUInt64.toInt64.toInt = w.toNat := by
  have hlt := w.toNat_lt
  have hnat : w.toUInt64.toBitVec.toNat = w.toNat := UInt32.toNat_toUInt64 w
  show w.toUInt64.toBitVec.toInt = _
  rw [BitVec.toInt_eq_toNat_of_lt (by omega), hnat]

theorem eval_i32Literal {n : Nat} {w : Int32} (hw : w.toInt = n) :
    (ofMagnitude n "i" .intLiteral).eval b = .ok (.i32 w) := by
  have hword : w.toInt64.toInt = w.toInt := Int32.toInt_toInt64 w
  refine eval_intLiteral .i32 rfl w.toInt64 (hword.trans hw) ?_
  show (int32? w.toInt64.toInt).map Value.i32 = _
  rw [int32?_eq_some_iff.2 hword.symm]
  rfl

/-- The negation of a literal is worth the negated word, and the least word is the
conversion of an abstract one. -/
theorem write_i32 (w : Int32) :
    ∃ e, write w.toInt64 .i32 = .ok e ∧ ∀ b, e.eval b = .ok (.i32 w) := by
  have hlow := w.le_toInt
  have hhigh := w.toInt_lt
  have hmin := Int32.toInt_minValue
  have hmax := Int32.toInt_maxValue
  simp only [write, Int32.toInt_toInt64, hmin, hmax]
  rw [if_neg (by omega)]
  split
  · rename_i hleast
    obtain rfl : w = Int32.minValue := Int32.toInt_inj.1 (by rw [hleast, hmin])
    -- its magnitude is no signed word, so it is negated while it is still abstract
    refine ⟨_, rfl, fun b => ?_⟩
    have hliteral : (ofMagnitude 2147483648 "" .intLiteral).eval b =
        .ok (.abstractInt 2147483648) :=
      eval_intLiteral .abstractInt rfl 2147483648 rfl rfl
    exact Expr.eval_construct (Expr.eval_unary hliteral)
  · rename_i hleast
    have hne : w ≠ Int32.minValue := by
      rintro rfl
      exact hleast hmin
    refine ⟨_, rfl, fun b => ?_⟩
    unfold signed
    split
    · have hneg : (-w).toInt = w.toInt.natAbs := by
        rw [toInt_neg_of_ne hne]
        omega
      rw [Expr.eval_unary (eval_i32Literal hneg)]
      show Except.ok (Value.i32 (- -w)) = _
      rw [Int32.neg_neg]
    · exact eval_i32Literal (by omega)

/-- A number that is not negative is written without a sign. -/
theorem signed_natCast (n : Nat) (suffix : String) (kind : String → Expr) :
    signed n suffix kind = ofMagnitude n suffix kind := by
  rw [signed, if_neg (by omega), Int.natAbs_natCast]

theorem writeMagnitude_u32 (n : UInt32) :
    writeMagnitude n .u32 = .ok (ofMagnitude n.toNat "u" .intLiteral) := by
  have hlt := n.toNat_lt
  have hsize : (UInt32.size : Int) = 2 ^ 32 := rfl
  simp only [writeMagnitude, write, toInt_toUInt64_toInt64, signed_natCast]
  rw [if_neg (by omega)]

theorem write_u32 (w : UInt32) :
    ∃ e, write w.toUInt64.toInt64 .u32 = .ok e ∧ ∀ b, e.eval b = .ok (.u32 w) := by
  have hword : w.toUInt64.toInt64.toInt = w.toNat := toInt_toUInt64_toInt64 w
  refine ⟨_, writeMagnitude_u32 w, fun b => ?_⟩
  refine eval_intLiteral .u32 rfl w.toUInt64.toInt64 hword ?_
  show (uint32? w.toUInt64.toInt64.toInt).map Value.u32 = _
  rw [hword, uint32?_eq_some_iff.2 rfl]
  rfl

/-- The literal of an abstract integer is worth it, also where it is negative. The least
word has none, since its negation is out of range. -/
theorem write_abstractInt {word : Int64} (hword : Int64.minValue.toInt < word.toInt) :
    ∃ e, write word .abstractInt = .ok e ∧ ∀ b, e.eval b = .ok (.abstractInt word) := by
  have hmin := Int64.toInt_minValue
  have hhigh := word.toInt_lt
  refine ⟨_, rfl, fun b => ?_⟩
  unfold signed
  split
  · have hneg : (-word).toInt = -word.toInt := by
      rw [Int64.toInt_neg, Int.bmod_eq_of_le (by omega) (by omega)]
    have hliteral : (ofMagnitude word.toInt.natAbs "" .intLiteral).eval b =
        .ok (.abstractInt (-word)) :=
      eval_intLiteral .abstractInt rfl (-word) (by omega) rfl
    rw [Expr.eval_unary hliteral]
    exact Value.exact_eq_ok_iff.2 ⟨word, by omega, rfl⟩
  · exact eval_intLiteral .abstractInt rfl word (by omega) rfl

/-! ## Floats -/

theorem survives_natCast {f : Format} (hf : f.Spacious) {n : Nat} (hn : n ≤ 2 ^ f.precision)
    (hword : n ≤ Int64.maxValue.toInt) : survives f n = true := by
  have hmin := Int64.toInt_minValue
  rw [survives, Binary.ofInt_natCast, Binary.toIntClamped_ofNat hf hn (by omega) hword]
  exact beq_self_eq_true _

theorem ofFloatChars?_single (n : Nat) :
    Value.ofFloatChars? (Numeral.ofNat n ++ ['f']) = some (.f32 (.ofNat n)) := by
  have hdecimal : (Binary.ofDecimal false n 0 : Single) = .ofNat n := by
    simpa using (Binary.ofDecimal_shifted n 0 : (_ : Single) = _)
  rw [Value.ofFloatChars?, Numeral.stripLast?_append]
  simp only [Binary.ofChars?, Numeral.decimal?_ofNat, Option.map_some, Binary.ofNumeral, hdecimal]

theorem ofFloatChars?_double (n : Nat) :
    Value.ofFloatChars? (Numeral.ofNat n ++ ['.', '0']) = some (.abstractFloat (.ofNat n)) := by
  have hdecimal : (Binary.ofDecimal false (n * 10) (-1) : Double) = .ofNat n :=
    Binary.ofDecimal_shifted n 1
  have hlast : (Numeral.ofNat n ++ ['.', '0']).getLast? = some '0' := by simp
  have hsuffix : Numeral.stripLast? 'f' (Numeral.ofNat n ++ ['.', '0']) = none := by
    rw [Numeral.stripLast?, hlast]
    rfl
  have hhalf : ¬ some '0' = some 'h' := by decide
  rw [Value.ofFloatChars?, hsuffix]
  simp only [hlast, if_neg hhalf, Binary.ofChars?, Numeral.decimal?_ofNat_point, Option.map_some,
    Binary.ofNumeral, hdecimal]

/-- A float literal is worth the whole number of its digits. -/
theorem eval_floatLiteral {n : Nat} {suffix : String} {v : Value}
    (h : Value.ofFloatChars? (Numeral.ofNat n ++ suffix.toList) = some v) :
    (ofMagnitude n suffix .floatLiteral).eval b = .ok v := by
  rw [ofMagnitude, Expr.eval, Value.ofLiteral, String.toList_append, String.toList_ofList, h]

theorem writeMagnitude_f32 {n : UInt32} (h : n.toNat ≤ 2 ^ 24) :
    writeMagnitude n .f32 = .ok (ofMagnitude n.toNat "f" .floatLiteral) := by
  have hmax := Int64.toInt_maxValue
  have hsurvives := survives_natCast Format.single_spacious h (by omega)
  simp only [writeMagnitude, write, toInt_toUInt64_toInt64, hsurvives, if_true, signed_natCast]

theorem writeMagnitude_abstractFloat {n : UInt32} (h : n.toNat ≤ 2 ^ 24) :
    writeMagnitude n .abstractFloat = .ok (ofMagnitude n.toNat ".0" .floatLiteral) := by
  have hmax := Int64.toInt_maxValue
  have hwide : 2 ^ 24 ≤ 2 ^ Format.double.precision := by decide
  have hsurvives := survives_natCast Format.double_spacious (Nat.le_trans h hwide) (by omega)
  simp only [writeMagnitude, write, toInt_toUInt64_toInt64, hsurvives, if_true, signed_natCast]

/-! ## Magnitudes -/

/-- A magnitude within the precise range of its type has a literal, which is worth it
whatever the bindings are. -/
theorem eval_writeMagnitude {n : UInt32} {ty : Scalar} {v : Value}
    (hv : Value.ofMagnitude? n ty = some v) (h : ty.isFloat = true → n.toNat ≤ 2 ^ 24) :
    ∃ e, writeMagnitude n ty = .ok e ∧ ∀ b, e.eval b = .ok v := by
  cases ty with
  | bool => cases hv
  | i32 =>
    obtain rfl := Option.some.inj hv
    exact write_i32 n.toInt32
  | u32 =>
    obtain rfl := Option.some.inj hv
    exact write_u32 n
  | abstractInt =>
    obtain rfl := Option.some.inj hv
    refine write_abstractInt ?_
    rw [toInt_toUInt64_toInt64]
    exact Int.lt_of_lt_of_le (by decide) (Int.natCast_nonneg _)
  | f32 =>
    refine ⟨_, writeMagnitude_f32 (h rfl), fun b => ?_⟩
    rw [eval_floatLiteral (ofFloatChars?_single _), ← Option.some.inj hv]
  | abstractFloat =>
    refine ⟨_, writeMagnitude_abstractFloat (h rfl), fun b => ?_⟩
    rw [eval_floatLiteral (ofFloatChars?_double _), ← Option.some.inj hv]

end Literal

end Camouflage
