import Camouflage.Proofs.LiteralRange

/-!
# Literals are read as they were written

Writing and reading literals are a codec over the words of 64 bits. What is read from a
written literal is its word in double precision, whatever the type is: the suffix is dropped, a
sign in front is applied, and the conversion around the least signed word of 32 bits is looked
through (`Literal.read_of_write`). Double precision holds every word that a concrete type has a
literal for, so clamping the number gives back the word, and with it the literal
(`Literal.write_read_write`).
-/

namespace Camouflage

namespace Binary

variable {f : Format} {x : Binary f} {n : Int}

theorem isFinite_neg (x : Binary f) : (-x).isFinite = x.isFinite := by
  cases x <;> rfl

theorem isFinite_of_whole? (h : x.whole? = some n) : x.isFinite = true := by
  obtain ⟨negative, hfits, rfl, -⟩ := whole?_eq_some_iff.1 h
  rfl

/-- The magnitude of an integer is finite if the integer is. -/
theorem isFinite_ofNat_natAbs (n : Int) :
    (ofNat n.natAbs : Binary f).isFinite = (ofInt n : Binary f).isFinite := by
  rcases Int.lt_or_le n 0 with hneg | hnonneg
  · rw [← neg_ofNat_natAbs hneg, isFinite_neg]
  · rw [ofNat_natAbs hnonneg]

theorem isFinite_ofNat (hf : f.Spacious) {n : Nat} (hn : n ≤ 2 ^ f.precision) :
    (ofNat n : Binary f).isFinite = true := by
  rw [ofNat_eq hf hn]
  rfl

end Binary

namespace Literal

/-! ## Reading plain digits -/

/-- The literal of an integer type is read as its number. -/
theorem read_intLiteral {ty : Scalar} (hty : ty.isInteger = true) {n : Nat} (hn : n < UInt64.size) :
    read (ofMagnitude n (intSuffix ty) .intLiteral) = .ok (.ofNat n) := by
  have hbody : withoutIntSuffix (Numeral.ofNat n ++ (intSuffix ty).toList) = Numeral.ofNat n := by
    obtain ⟨found, -, heq⟩ := Value.splitIntSuffix_eq (Numeral.ofNat n ++ (intSuffix ty).toList)
    exact (Prod.mk.inj (heq.symm.trans (splitIntSuffix_intSuffix hty n))).2
  have hmagnitude : intMagnitude? (Numeral.ofNat n) = some n := by
    simp [intMagnitude?, Numeral.hexadecimal?_ofNat, Numeral.unsigned?_ofNat, hn]
  have hchars : ofIntChars? (Numeral.ofNat n ++ (intSuffix ty).toList) = some (.ofNat n) := by
    unfold ofIntChars?
    rw [hbody]
    split
    · rename_i body heq
      exact absurd (heq ▸ List.mem_cons_self) (Numeral.not_mem_ofNat (c := '-') rfl n)
    · rw [hmagnitude]
      rfl
  rw [ofMagnitude, read, ofText, String.toList_append, String.toList_ofList, hchars]

/-- A float literal is read as its characters are. -/
theorem read_floatLiteral {n : Nat} {suffix : String} {x : Double}
    (h : ofFloatChars? (Numeral.ofNat n ++ suffix.toList) = some x) :
    read (ofMagnitude n suffix .floatLiteral) = .ok x := by
  rw [ofMagnitude, read, ofText, String.toList_append, String.toList_ofList, h]

/-- A literal of single precision is read as its number in double precision. -/
theorem read_single {n : Nat} (hfinite : (Binary.ofNat n : Double).isFinite = true) :
    read (ofMagnitude n "f" .floatLiteral) = .ok (.ofNat n) := by
  have hdecimal : (Binary.ofDecimal false n 0 : Double) = .ofNat n := by
    simpa using (Binary.ofDecimal_shifted n 0 : (_ : Double) = _)
  have hchars : ofFloatChars? (Numeral.ofNat n ++ ['f']) = some (.ofNat n) := by
    simp [ofFloatChars?, withoutFloatSuffix, Numeral.stripLast?_append, Numeral.hexadecimal?_ofNat,
      Binary.ofChars?, Numeral.decimal?_ofNat, Binary.ofNumeral, hdecimal, hfinite]
  exact read_floatLiteral hchars

theorem read_double {n : Nat} (hfinite : (Binary.ofNat n : Double).isFinite = true) :
    read (ofMagnitude n ".0" .floatLiteral) = .ok (.ofNat n) := by
  have hdecimal : (Binary.ofDecimal false (n * 10) (-1) : Double) = .ofNat n :=
    Binary.ofDecimal_shifted n 1
  -- there is no letter in the text, so no mark of another radix
  have hletters : ∀ c, c.isDigit = false → c ≠ '.' → c ∉ Numeral.ofNat n ++ ['.', '0'] := by
    intro c hdigit hpoint hmem
    rcases List.mem_append.1 hmem with hmem | hmem
    · exact Numeral.not_mem_ofNat hdigit n hmem
    · rcases List.mem_cons.1 hmem with rfl | hmem
      · exact hpoint rfl
      · rw [List.mem_singleton.1 hmem] at hdigit
        cases hdigit
  have hradix : Numeral.hexadecimal? (Numeral.ofNat n ++ ['.', '0']) = none :=
    Numeral.hexadecimal?_eq_none (hletters 'x' rfl (by decide)) (hletters 'X' rfl (by decide))
  have hchars : ofFloatChars? (Numeral.ofNat n ++ ['.', '0']) = some (.ofNat n) := by
    simp [ofFloatChars?, withoutFloatSuffix, Numeral.stripLast?, hradix, Binary.ofChars?,
      Numeral.decimal?_ofNat_point, Binary.ofNumeral, hdecimal, hfinite]
  exact read_floatLiteral hchars

/-! ## Reading signed literals -/

variable {n : Int} {ty : Scalar} {word : Int64} {e : Expr}

theorem read_neg {x : Double} (h : read e = .ok x) : read e.neg = .ok (-x) := by
  rw [read, h]
  rfl

/-- If the literal of a magnitude is read as the magnitude, a signed literal is read as its
integer. -/
theorem read_signed {suffix : String} {kind : String → Expr}
    (h : read (ofMagnitude n.natAbs suffix kind) = .ok (.ofNat n.natAbs)) :
    read (signed n suffix kind) = .ok (.ofInt n) := by
  unfold signed
  split
  · rename_i hneg
    rw [read_neg h, Binary.neg_ofNat_natAbs hneg]
  · rename_i hnonneg
    rw [h, Binary.ofNat_natAbs (Int.not_lt.1 hnonneg)]

theorem natAbs_toInt_lt (word : Int64) : word.toInt.natAbs < UInt64.size := by
  have hlow := word.le_toInt
  have hhigh := word.toInt_lt
  have hsize : UInt64.size = 2 ^ 64 := rfl
  omega

theorem read_signed_int (ty : Scalar) (hty : ty.isInteger = true) (word : Int64) :
    read (signed word.toInt (intSuffix ty) .intLiteral) = .ok (.ofInt word.toInt) :=
  read_signed (read_intLiteral hty (natAbs_toInt_lt word))

/-! ## Words that double precision has -/

theorem toIntClamped_of_survives {f : Format} (h : survives f n = true) :
    (Binary.ofInt n : Binary f).toIntClamped Int64.minValue.toInt Int64.maxValue.toInt = n := by
  rwa [survives, beq_iff_eq] at h

/-- What survives single precision survives double precision. -/
theorem survives_double_of_single (h : survives .single word.toInt = true) :
    survives .double word.toInt = true := by
  by_cases hword : word = Int64.maxValue
  -- the greatest word is no number of either format, and survives both
  · subst hword
    decide +kernel
  · rw [survives_iff Format.single_fits_least hword] at h
    rw [survives_iff Format.double_fits_least hword, ← Binary.exists_whole?_eq_some_iff]
    exact ⟨_, (Binary.whole?_convert Format.single_within_double _).trans h⟩

theorem isFinite_of_survives (h : survives .double word.toInt = true) :
    (Binary.ofNat word.toInt.natAbs : Double).isFinite = true := by
  rw [Binary.isFinite_ofNat_natAbs]
  by_cases hword : word = Int64.maxValue
  · subst hword
    decide +kernel
  · exact Binary.isFinite_of_whole? ((survives_iff Format.double_fits_least hword).1 h)

theorem survives_of_natAbs_le {f : Format} (hf : f.Spacious) (hn : word.toInt.natAbs ≤ 2 ^ f.precision) :
    survives f word.toInt = true := by
  have hlow := word.le_toInt
  have hhigh := word.toInt_lt
  have hmin := Int64.toInt_minValue
  have hmax := Int64.toInt_maxValue
  exact beq_iff_eq.2 (Binary.toIntClamped_of_whole? (Binary.whole?_ofInt hf hn) (by omega) (by omega))

/-! ## The codec -/

/-- What is read from a written literal is its word, in double precision. -/
theorem read_of_write (h : write word ty = .ok e) : read e = .ok (.ofInt word.toInt) := by
  cases ty with
  | bool => cases h
  | i32 =>
    simp only [write] at h
    split at h
    · cases h
    · split at h
      · obtain rfl := Except.ok.inj h
        exact read_signed_int .abstractInt rfl word
      · obtain rfl := Except.ok.inj h
        exact read_signed_int .i32 rfl word
  | u32 =>
    simp only [write] at h
    split at h
    · cases h
    · obtain rfl := Except.ok.inj h
      exact read_signed_int .u32 rfl word
  | abstractInt =>
    obtain rfl := Except.ok.inj h
    exact read_signed_int .abstractInt rfl word
  | f32 =>
    rw [write_f32] at h
    split at h
    · rename_i hsurvives
      obtain rfl := Except.ok.inj h
      exact read_signed (read_single (isFinite_of_survives (survives_double_of_single hsurvives)))
    · cases h
  | abstractFloat =>
    rw [write_abstractFloat] at h
    split at h
    · rename_i hsurvives
      obtain rfl := Except.ok.inj h
      exact read_signed (read_double (isFinite_of_survives hsurvives))
    · cases h

/-- A word with a literal survives double precision, unless it is a large abstract integer. -/
theorem survives_of_write (h : write word ty = .ok e)
    (habstract : ty = .abstractInt → word.toInt.natAbs ≤ 2 ^ 53) :
    survives .double word.toInt = true := by
  have hwide : ∀ {n : Nat}, n ≤ 2 ^ 32 → n ≤ 2 ^ Format.double.precision :=
    fun hn => Nat.le_trans hn (by decide)
  cases ty with
  | bool => cases h
  | i32 =>
    have hmin := Int32.toInt_minValue
    have hmax := Int32.toInt_maxValue
    simp only [write] at h
    split at h
    · cases h
    · exact survives_of_natAbs_le Format.double_spacious (hwide (by omega))
  | u32 =>
    have hsize : UInt32.size = 2 ^ 32 := rfl
    simp only [write] at h
    split at h
    · cases h
    · exact survives_of_natAbs_le Format.double_spacious (hwide (by omega))
  | abstractInt => exact survives_of_natAbs_le Format.double_spacious (habstract rfl)
  | f32 =>
    rw [write_f32] at h
    split at h
    · rename_i hsurvives
      exact survives_double_of_single hsurvives
    · cases h
  | abstractFloat =>
    rw [write_abstractFloat] at h
    split at h
    · rename_i hsurvives
      exact hsurvives
    · cases h

/-- A written literal is read as its word in double precision. Clamping that to a word and
writing it again gives the same literal, as long as an abstract integer is one of double
precision. -/
theorem write_read_write (h : write word ty = .ok e)
    (habstract : ty = .abstractInt → word.toInt.natAbs ≤ 2 ^ 53) :
    ∃ x, read e = .ok x ∧ x = .ofInt word.toInt ∧
      write (.ofInt (x.toIntClamped Int64.minValue.toInt Int64.maxValue.toInt)) ty = .ok e := by
  have hword := toIntClamped_of_survives (survives_of_write h habstract)
  refine ⟨.ofInt word.toInt, read_of_write h, rfl, ?_⟩
  rw [hword, Int64.ofInt_toInt, h]

/-- The least signed word has a form of its own, the greatest word is rounded up and clamped back
again, and the last abstract integer is a power of two. -/
theorem write_read_write_ends :
    (∃ e x, write (-2147483648) .i32 = .ok e ∧ read e = .ok x ∧ x = .ofInt (-2147483648) ∧
      write (.ofInt (x.toIntClamped Int64.minValue.toInt Int64.maxValue.toInt)) .i32 = .ok e) ∧
    (∃ e x, write Int64.maxValue .f32 = .ok e ∧ read e = .ok x ∧ x = .ofInt Int64.maxValue.toInt ∧
      write (.ofInt (x.toIntClamped Int64.minValue.toInt Int64.maxValue.toInt)) .f32 = .ok e) ∧
    ∃ e x, write (-9007199254740992) .abstractInt = .ok e ∧ read e = .ok x ∧
      x = .ofInt (-9007199254740992) ∧
      write (.ofInt (x.toIntClamped Int64.minValue.toInt Int64.maxValue.toInt)) .abstractInt =
        .ok e := by
  have hleast : write (-2147483648) .i32 =
      .ok (.construct .i32 [(Expr.intLiteral "2147483648").neg]) := by decide +kernel
  have hgreatest : write Int64.maxValue .f32 = .ok (.floatLiteral "9223372036854775807f") := by
    decide +kernel
  have hlast : write (-9007199254740992) .abstractInt =
      .ok (Expr.intLiteral "9007199254740992").neg := by decide +kernel
  obtain ⟨x, hread⟩ := write_read_write hleast (fun h => by cases h)
  obtain ⟨y, hread'⟩ := write_read_write hgreatest (fun h => by cases h)
  obtain ⟨z, hread''⟩ := write_read_write hlast (fun _ => by decide)
  exact ⟨⟨_, x, hleast, hread⟩, ⟨_, y, hgreatest, hread'⟩, _, z, hlast, hread''⟩

end Literal

end Camouflage
