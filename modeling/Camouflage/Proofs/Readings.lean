import Camouflage.Literal.Reader
import Camouflage.Proofs.Whole
import Camouflage.Evaluation
import Mathlib.Algebra.Group.Int.Defs

/-!
# Two readings of an integer literal

Evaluation reads an integer literal as a word of its type, `Literal.read` as a number of
double precision. Where both succeed the number is the word rounded once, and a sign in
front keeps it so (`rounds_of_read`): negation is exact on numbers and wraps on words only
at the least signed word, whose negation it is itself.
-/

namespace Camouflage

namespace Binary

variable {f : Format}

/-- A number that an integer rounds to. The sign of a zero is left open. -/
def Rounds (x : Binary f) (n : Int) : Prop :=
  ∃ negative, x = ofQuotient negative (n.natAbs * f.one) 1 ∧ (n ≠ 0 → negative = decide (n < 0))

theorem rounds_ofNat (n : Nat) : (ofNat n : Binary f).Rounds n := by
  refine ⟨false, by rw [Int.natAbs_natCast]; rfl, fun _ => ?_⟩
  exact (decide_eq_false (by omega)).symm

theorem neg_ofQuotient (negative : Bool) (num den : Nat) :
    -(ofQuotient negative num den : Binary f) = ofQuotient (!negative) num den := by
  show neg (ofUnits negative _) = ofUnits (!negative) _
  unfold ofUnits
  split <;> rfl

theorem Rounds.neg {x : Binary f} {n : Int} (h : x.Rounds n) : (-x).Rounds (-n) := by
  obtain ⟨negative, rfl, hsign⟩ := h
  refine ⟨!negative, by rw [neg_ofQuotient, Int.natAbs_neg], fun hn => ?_⟩
  have hne : n ≠ 0 := by omega
  rw [hsign hne, ← decide_not]
  exact decide_eq_decide.2 (by omega)

theorem signed_decide (n : Int) : signed (decide (n < 0)) n.natAbs = n := by
  by_cases h : n < 0
  · rw [decide_eq_true h]
    show -(n.natAbs : Int) = n
    omega
  · rw [decide_eq_false h]
    show (n.natAbs : Int) = n
    omega

/-- Whichever sign a zero has, sign and magnitude make the integer. -/
theorem Rounds.exists_signed {x : Binary f} {n : Int} (h : x.Rounds n) :
    ∃ negative, x = ofQuotient negative (n.natAbs * f.one) 1 ∧ signed negative n.natAbs = n := by
  obtain ⟨negative, rfl, hsign⟩ := h
  refine ⟨negative, rfl, ?_⟩
  by_cases hzero : n = 0
  · subst hzero
    cases negative <;> rfl
  · rw [hsign hzero]
    exact signed_decide n

/-- A whole number in range is found again as the integer part. -/
theorem Rounds.toIntClamped {x : Binary f} {n low high : Int} (h : x.Rounds n) (hf : f.Spacious)
    (hn : n.natAbs ≤ 2 ^ f.precision) (hlow : low ≤ n) (hhigh : n ≤ high) :
    x.toIntClamped low high = n := by
  obtain ⟨negative, rfl, hvalue⟩ := h.exists_signed
  rw [ofQuotient_of_fits (hf.fits hn)]
  simp only [Binary.toIntClamped, Nat.mul_div_cancel _ f.one_pos, hvalue]
  omega

end Binary

namespace Numeral

/-! ## Signs and marks are no digits -/

theorem digits?_minus (radix : Nat) (cs : List Char) : digits? radix ('-' :: cs) = none := by
  simp [digits?, digitsFrom?, digit?, digitValue?]

theorem digits?_plus (radix : Nat) (cs : List Char) : digits? radix ('+' :: cs) = none := by
  simp [digits?, digitsFrom?, digit?, digitValue?]

theorem digits?_of_hexadecimal? {cs body : List Char} (h : hexadecimal? cs = some body) :
    digits? 10 cs = none := by
  unfold hexadecimal? at h
  split at h
  · simp [digits?, digitsFrom?, digit?, digitValue?]
  · simp [digits?, digitsFrom?, digit?, digitValue?]
  · cases h

theorem signed?_eq_of_unsigned? {radix : Nat} {cs : List Char} {m : Int} {n : Nat}
    (hm : signed? radix cs = some m) (hn : unsigned? radix cs = some n) : m = n := by
  unfold signed? at hm
  split at hm
  · rename_i body
    have hnone : unsigned? radix ('-' :: body) = none := digits?_minus radix body
    rw [hnone] at hn
    cases hn
  · rw [hn] at hm
    exact (Option.some.inj hm).symm

end Numeral

namespace Value

/-- The integer of a value of an integer type. -/
def integer? : Value → Option Int
  | i32 n => some n.toInt
  | u32 n => some n.toNat
  | abstractInt n => some n.toInt
  | f32 _ | abstractFloat _ => none

/-- Concretization between integer types keeps the integer. -/
theorem integer?_of_concretize? {word : Int64} {ty : Scalar} {v : Value} (hty : ty.isInteger = true)
    (h : (abstractInt word).concretize? ty = some v) : v.integer? = some word.toInt := by
  cases ty with
  | i32 =>
    obtain ⟨w, hw, rfl⟩ := Option.map_eq_some_iff.1 h
    rw [integer?, int32?_eq_some_iff.1 hw]
  | u32 =>
    obtain ⟨w, hw, rfl⟩ := Option.map_eq_some_iff.1 h
    rw [integer?, uint32?_eq_some_iff.1 hw]
  | abstractInt =>
    rw [← Option.some.inj h]
    rfl
  | _ => cases hty

theorem splitIntSuffix_eq (cs : List Char) :
    ∃ ty, ty.isInteger = true ∧ splitIntSuffix cs = (ty, Literal.withoutIntSuffix cs) := by
  unfold splitIntSuffix Literal.withoutIntSuffix
  cases Numeral.stripLast? 'i' cs with
  | some body => exact ⟨.i32, rfl, rfl⟩
  | none =>
    cases Numeral.stripLast? 'u' cs with
    | some body => exact ⟨.u32, rfl, rfl⟩
    | none => exact ⟨.abstractInt, rfl, rfl⟩

theorem integer?_of_ofFloatChars? {cs : List Char} {v : Value} (h : ofFloatChars? cs = some v) :
    v.integer? = none := by
  unfold ofFloatChars? at h
  split at h
  · obtain ⟨x, -, rfl⟩ := Option.map_eq_some_iff.1 h
    rfl
  · split at h
    · cases h
    · obtain ⟨x, -, rfl⟩ := Option.map_eq_some_iff.1 h
      rfl

end Value

namespace Literal

/-- Reads the digits of an integer literal as evaluation does, with their sign. -/
def signedDigits? (body : List Char) : Option Int :=
  match Numeral.hexadecimal? body with
  | some digits => Numeral.signed? 16 digits
  | none => Numeral.signed? 10 body

theorem signedDigits?_of_ofIntChars? {cs : List Char} {v : Value} (h : Value.ofIntChars? cs = some v) :
    ∃ n, signedDigits? (withoutIntSuffix cs) = some n ∧ v.integer? = some n := by
  obtain ⟨ty, hty, hsplit⟩ := Value.splitIntSuffix_eq cs
  have hsteps : Value.ofIntChars? cs = (signedDigits? (withoutIntSuffix cs)).bind fun n =>
      (int64? n).bind fun word => (Value.abstractInt word).concretize? ty := by
    unfold Value.ofIntChars? signedDigits?
    rw [hsplit]
    dsimp only
    cases Numeral.hexadecimal? (withoutIntSuffix cs) <;> rfl
  rw [hsteps] at h
  obtain ⟨n, hn, hword⟩ := Option.bind_eq_some_iff.1 h
  obtain ⟨word, hword, hv⟩ := Option.bind_eq_some_iff.1 hword
  refine ⟨n, hn, ?_⟩
  rw [Value.integer?_of_concretize? hty hv, int64?_eq_some_iff.1 hword]

theorem signedDigits?_eq_of_intMagnitude? {body : List Char} {m : Int} {n : Nat}
    (hm : signedDigits? body = some m) (hn : intMagnitude? body = some n) : m = n := by
  have hread := (Option.filter_eq_some_iff.1 hn).1
  unfold signedDigits? at hm
  split at hm
  · rename_i digits hhex
    rw [hhex] at hread
    exact Numeral.signed?_eq_of_unsigned? hm hread
  · rename_i hhex
    rw [hhex] at hread
    exact Numeral.signed?_eq_of_unsigned? hm hread

/-- Behind a minus sign the marks and signs that the reading allows are none for
evaluation. -/
theorem signedDigits?_eq_of_minus {body : List Char} {m : Int} {n : Nat}
    (hm : signedDigits? ('-' :: body) = some m) (hn : intMagnitude? body = some n) : m = -n := by
  -- a mark stands first or not at all, so a sign in front makes the digits decimal
  have hplain : Numeral.hexadecimal? ('-' :: body) = none := by simp [Numeral.hexadecimal?]
  unfold signedDigits? at hm
  rw [hplain] at hm
  obtain ⟨j, hj, hneg⟩ := Option.map_eq_some_iff.1 hm
  have hread := (Option.filter_eq_some_iff.1 hn).1
  cases hhex : Numeral.hexadecimal? body with
  | some digits =>
    rw [Numeral.digits?_of_hexadecimal? hhex] at hj
    cases hj
  | none =>
    rw [hhex] at hread
    change Numeral.unsigned? 10 body = some n at hread
    unfold Numeral.unsigned? at hread
    split at hread
    · rw [Numeral.digits?_plus] at hj
      cases hj
    · rw [hread] at hj
      rw [← hneg, ← Option.some.inj hj]

/-- On one text both readings have the same integer. -/
theorem rounds_of_ofIntChars? {cs : List Char} {v : Value} {x : Double}
    (hv : Value.ofIntChars? cs = some v) (hx : ofIntChars? cs = some x) :
    ∃ n, v.integer? = some n ∧ x.Rounds n := by
  obtain ⟨n, hn, hinteger⟩ := signedDigits?_of_ofIntChars? hv
  refine ⟨n, hinteger, ?_⟩
  unfold ofIntChars? at hx
  split at hx
  · rename_i body hbody
    obtain ⟨m, hm, rfl⟩ := Option.map_eq_some_iff.1 hx
    rw [hbody] at hn
    rw [signedDigits?_eq_of_minus hn hm]
    exact (Binary.rounds_ofNat m).neg
  · obtain ⟨m, hm, rfl⟩ := Option.map_eq_some_iff.1 hx
    rw [signedDigits?_eq_of_intMagnitude? hn hm]
    exact Binary.rounds_ofNat m

end Literal

/-! ## Signed literals -/

namespace Expr

/-- Whether the expression is a literal of a number, behind any signs and brackets. -/
def isSignedLiteral : Expr → Bool
  | intLiteral _ | floatLiteral _ => true
  | unary .negate target => target.isSignedLiteral
  | paren inner => inner.isSignedLiteral
  | _ => false
termination_by structural e => e

variable {e : Expr} {b : Bindings}

/-- Bindings do not matter to a signed literal. -/
theorem eval_of_isSignedLiteral (h : e.isSignedLiteral = true) (b b' : Bindings) :
    e.eval b = e.eval b' := by
  fun_induction isSignedLiteral e with
  | case1 text => rw [eval, eval]
  | case2 text => rw [eval, eval]
  | case3 target ih => rw [eval, eval, ih h]
  | case4 inner ih => rw [eval, eval, ih h]
  | case5 => cases h

theorem eval_unary_eq_ok {op : UnaryOp} {v : Value} (h : (unary op e).eval b = .ok v) :
    ∃ w, e.eval b = .ok w ∧ op.apply w = .ok v := by
  cases heval : e.eval b with
  | ok w =>
    rw [eval_unary heval] at h
    exact ⟨w, rfl, h⟩
  | error fault =>
    rw [eval, heval] at h
    cases h

theorem eval_construct_eq_ok {ty : Scalar} {v : Value} (h : (construct ty [e]).eval b = .ok v) :
    ∃ w, e.eval b = .ok w ∧ w.convert ty = .ok v := by
  cases heval : e.eval b with
  | ok w =>
    rw [eval_construct heval] at h
    exact ⟨w, rfl, h⟩
  | error fault =>
    rw [eval, heval] at h
    cases h

theorem ofLiteral_eq_ok {text : String} {read? : List Char → Option Value} {v : Value}
    (h : Value.ofLiteral text read? = .ok v) : read? text.toList = some v := by
  unfold Value.ofLiteral at h
  split at h
  · rename_i hread
    rw [hread, Except.ok.inj h]
  · cases h

theorem ofText_eq_ok {text : String} {read? : List Char → Option Double} {x : Double}
    (h : Literal.ofText text read? = .ok x) : read? text.toList = some x := by
  unfold Literal.ofText at h
  split at h
  · rename_i hread
    rw [hread, Except.ok.inj h]
  · cases h

theorem read_neg_eq_ok {x : Double} (h : Literal.read e.neg = .ok x) :
    ∃ y, Literal.read e = .ok y ∧ x = -y := by
  cases hread : Literal.read e with
  | error failure =>
    rw [Literal.read, hread] at h
    cases h
  | ok y =>
    rw [Literal.read, hread] at h
    exact ⟨y, rfl, (Except.ok.inj h).symm⟩

/-- The number that is read from a signed literal is the integer it is worth, rounded. Only
the negation of the least signed word can be read as what the word wrapped from. -/
theorem rounds_of_read (h : e.isSignedLiteral = true) {v : Value} {x : Double} {n : Int}
    (hv : e.eval b = .ok v) (hx : Literal.read e = .ok x) (hn : v.integer? = some n) :
    x.Rounds n ∨ (v = .i32 Int32.minValue ∧ x.Rounds (-n)) := by
  fun_induction isSignedLiteral e generalizing v x n with
  | case1 text =>
    obtain ⟨m, hm, hrounds⟩ := Literal.rounds_of_ofIntChars? (ofLiteral_eq_ok hv) (ofText_eq_ok hx)
    rw [hn] at hm
    exact .inl (Option.some.inj hm ▸ hrounds)
  | case2 text =>
    have hfloat := Value.integer?_of_ofFloatChars? (ofLiteral_eq_ok hv)
    rw [hn] at hfloat
    cases hfloat
  | case3 target ih =>
    obtain ⟨w, hw, happly⟩ := eval_unary_eq_ok hv
    obtain ⟨y, hread, rfl⟩ := read_neg_eq_ok hx
    cases w with
    | i32 k =>
      obtain rfl := Except.ok.inj happly
      obtain rfl := Option.some.inj hn
      by_cases hleast : k = Int32.minValue
      -- the least word is its own negation, so the two cases change places
      · subst hleast
        rcases ih h hw hread rfl with hrounds | ⟨-, hrounds⟩
        · exact .inr ⟨rfl, hrounds.neg⟩
        · exact .inl hrounds.neg
      · have hneg := toInt_neg_of_ne hleast
        rcases ih h hw hread rfl with hrounds | ⟨hk, -⟩
        · exact .inl (hneg ▸ hrounds.neg)
        · exact absurd (Value.i32.inj hk) hleast
    | abstractInt k =>
      obtain ⟨word, hword, rfl⟩ := Value.exact_eq_ok_iff.1 happly
      obtain rfl := Option.some.inj hn
      rcases ih h hw hread rfl with hrounds | ⟨hk, -⟩
      · exact .inl (hword ▸ hrounds.neg)
      · cases hk
    | u32 k => cases happly
    | f32 z =>
      obtain rfl := Except.ok.inj happly
      cases hn
    | abstractFloat z =>
      obtain rfl := Except.ok.inj happly
      cases hn
  | case4 inner ih =>
    rw [eval_paren] at hv
    exact ih h hv hx hn
  | case5 => cases h

end Expr

end Camouflage
