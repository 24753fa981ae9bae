import Camouflage.Proofs.KeptNumbers

/-!
# The two readings of an integer literal agree

An integer literal behind signs and brackets is worth an integer, and what is read from it is
that integer in double precision. Where a text is taken by both readers they find the same
digits in it, whatever marks, signs and suffixes it has (`Literal.rounds_of_ofIntChars?`), and
both round the integer once. So the numbers are equal, but for the sign of a zero.

Signs in front change this in one place only. The least signed word is its own negation, while
the number that is read changes its sign.
-/

namespace Camouflage

namespace Binary

variable {f : Format} {x y : Binary f}

/-- A number equals itself, unless it is none. -/
theorem same_self (h : x ≠ nan) : x.same x = true := by
  cases x with
  | nan => exact absurd rfl h
  | infinite negative => simp [same, position?_infinite]
  | finite negative units hfits => simp [same, position?_finite]

theorem same_zero (s t : Bool) : (zero s : Binary f).same (zero t) = true := by
  have hplace : ∀ negative, (zero negative : Binary f).position? = some 0 := fun negative => by
    rw [position?_of_whole? (whole?_zero negative), Int.zero_mul]
  simp [same, hplace]

/-- Numbers that one integer rounds to are equal. -/
theorem Rounds.same {n : Int} (hx : x.Rounds n) (hy : y.Rounds n) : x.same y = true := by
  obtain ⟨s, rfl, hs⟩ := hx
  obtain ⟨t, rfl, ht⟩ := hy
  by_cases hzero : n = 0
  · subst hzero
    rw [Int.natAbs_zero, Nat.zero_mul, ofQuotient_of_fits f.fits_zero,
      ofQuotient_of_fits f.fits_zero]
    exact same_zero s t
  · rw [hs hzero, ht hzero]
    exact same_self (ofUnits_ne_nan _ _)

theorem Rounds.eq_ofInt {n : Int} (h : x.Rounds n) (hne : n ≠ 0) : x = ofInt n := by
  obtain ⟨negative, rfl, hsign⟩ := h
  rw [hsign hne, ofInt]

end Binary

namespace Expr

/-- Whether the expression is an integer literal, behind any signs and brackets. -/
def isSignedInteger : Expr → Bool
  | intLiteral _ => true
  | unary .negate target => target.isSignedInteger
  | paren inner => inner.isSignedInteger
  | _ => false
termination_by structural e => e

variable {e : Expr} {b : Bindings} {v : Value} {x : Double}

theorem isSignedLiteral_of_isSignedInteger (h : e.isSignedInteger = true) :
    e.isSignedLiteral = true := by
  fun_induction isSignedInteger e with
  | case1 text => rfl
  | case2 target ih => exact ih h
  | case3 inner ih => exact ih h
  | case4 => cases h

/-- What such a literal is worth is an integer. -/
theorem exists_integer?_of_isSignedInteger (h : e.isSignedInteger = true) (hv : e.eval b = .ok v) :
    ∃ n, v.integer? = some n := by
  fun_induction isSignedInteger e generalizing v with
  | case1 text =>
    obtain ⟨n, -, hn⟩ := Literal.signedDigits?_of_ofIntChars? (ofLiteral_eq_ok hv)
    exact ⟨n, hn⟩
  | case2 target ih =>
    obtain ⟨w, hw, happly⟩ := eval_unary_eq_ok hv
    obtain ⟨m, hm⟩ := ih h hw
    cases hinteger : v.integer? with
    | some n => exact ⟨n, rfl⟩
    | none =>
      rw [UnaryOp.integer?_eq_none_of_apply happly hinteger] at hm
      cases hm
  | case3 inner ih =>
    rw [eval_paren] at hv
    exact ih h hv
  | case4 => cases h

/-- The number that is read from an integer literal behind signs and brackets equals the
integer that it is worth. The least signed word may also be read as the number that it wrapped
from. -/
theorem same_of_read (h : e.isSignedInteger = true) (hx : Literal.read e = .ok x)
    (hv : e.eval b = .ok v) :
    v.scalar.isInteger = true ∧
      (v.toDouble.same x = true ∨ (v = .i32 Int32.minValue ∧ x = .ofNat (2 ^ 31))) := by
  obtain ⟨n, hn⟩ := exists_integer?_of_isSignedInteger h hv
  constructor
  · cases v with
    | f32 y => cases hn
    | abstractFloat y => cases hn
    | _ => rfl
  · rcases rounds_of_read (isSignedLiteral_of_isSignedInteger h) hv hx hn with
      hrounds | ⟨hleast, hrounds⟩
    · rw [Value.toDouble_of_integer? hn]
      exact .inl ((Binary.rounds_ofInt n).same hrounds)
    · subst hleast
      obtain rfl := Option.some.inj hn
      have hwrapped : -Int32.minValue.toInt = ((2 ^ 31 : Nat) : Int) := by decide
      rw [hwrapped] at hrounds
      exact .inr ⟨rfl, (hrounds.eq_ofInt (by decide)).trans (Binary.ofInt_natCast _)⟩

/-- A sign behind the mark of the radix is read alike, and the least signed word is read with
either sign. -/
theorem same_of_read_marked :
    (∃ x v, Literal.read (intLiteral "0x+1Fi").neg = .ok x ∧
      (intLiteral "0x+1Fi").neg.eval .empty = .ok v ∧ v.toDouble.same x = true) ∧
    ∃ x, Literal.read (intLiteral "-2147483648i").paren.neg = .ok x ∧
      (intLiteral "-2147483648i").paren.neg.eval .empty = .ok (.i32 Int32.minValue) ∧
      x = .ofNat (2 ^ 31) := by
  have hmarked : Literal.read (intLiteral "0x+1Fi").neg = .ok (.ofInt (-31)) := by decide +kernel
  have hworth : (intLiteral "0x+1Fi").neg.eval .empty = .ok (.i32 (-31)) := by decide +kernel
  have hleast : Literal.read (intLiteral "-2147483648i").paren.neg = .ok (.ofNat (2 ^ 31)) := by
    decide +kernel
  have hwraps : (intLiteral "-2147483648i").paren.neg.eval .empty = .ok (.i32 Int32.minValue) := by
    decide +kernel
  constructor
  · refine ⟨_, _, hmarked, hworth, ?_⟩
    exact (same_of_read rfl hmarked hworth).2.resolve_right fun h => by cases h.1
  · refine ⟨_, hleast, hwraps, ?_⟩
    refine ((same_of_read rfl hleast hwraps).2.resolve_left ?_).2
    decide +kernel

end Expr

end Camouflage
