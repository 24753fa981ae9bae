/-!
# Numerals

How numbers are written as text. A numeral is read whole or not at all: there is
no place for blanks, digit separators or anything after the last digit. Integers
are read at any size, and their users check ranges; decimals are read to an exact
sign, digit string and power of ten, and rounding is left to the format that
takes them.
-/

namespace Camouflage

namespace Numeral

/-! ## Integers -/

/-- The value of a digit: the decimal digits, then the letters in either case. -/
def digitValue? (c : Char) : Option Nat :=
  if '0' ≤ c ∧ c ≤ '9' then some (c.toNat - '0'.toNat)
  else if 'a' ≤ c ∧ c ≤ 'z' then some (c.toNat - 'a'.toNat + 10)
  else if 'A' ≤ c ∧ c ≤ 'Z' then some (c.toNat - 'A'.toNat + 10)
  else none

/-- The value of a character as a digit of a radix. -/
def digit? (radix : Nat) (c : Char) : Option Nat :=
  (digitValue? c).filter (· < radix)

/-- Reads digits behind an already read number. -/
def digitsFrom? (radix : Nat) (read : Nat) : List Char → Option Nat
  | [] => some read
  | c :: cs => do digitsFrom? radix (radix * read + (← digit? radix c)) cs

/-- Reads one or more digits and nothing else. -/
def digits? (radix : Nat) : List Char → Option Nat
  | [] => none
  | cs => digitsFrom? radix 0 cs

/-- Reads digits behind an optional plus sign. -/
def unsigned? (radix : Nat) : List Char → Option Nat
  | '+' :: cs => digits? radix cs
  | cs => digits? radix cs

/-- Reads digits behind an optional sign. -/
def signed? (radix : Nat) : List Char → Option Int
  | '-' :: cs => (digits? radix cs).map fun n => -(n : Int)
  | cs => (unsigned? radix cs).map Int.ofNat

/-- A body in hexadecimal, without its mark. -/
def hexadecimal? : List Char → Option (List Char)
  | '0' :: 'x' :: cs | '0' :: 'X' :: cs => some cs
  | _ => none

/-- The decimal digits of a natural number, without leading zeros. -/
def ofNat (n : Nat) : List Char := Nat.toDigits 10 n

/-- The decimal digits of an integer, behind a minus sign if it is negative. -/
def ofInt (n : Int) : List Char :=
  if n < 0 then '-' :: ofNat n.natAbs else ofNat n.natAbs

/-- A decimal digit is read as what it stands for. -/
theorem digit?_of_isDigit {c : Char} (h : c.isDigit = true) :
    digit? 10 c = some (c.toNat - '0'.toNat) := by
  simp only [Char.isDigit, Bool.and_eq_true, decide_eq_true_eq] at h
  have hrange : '0' ≤ c ∧ c ≤ '9' := ⟨h.1, h.2⟩
  have hle : c.toNat ≤ 57 := h.2
  simp [digit?, digitValue?, hrange, Option.filter]
  omega

theorem digitsFrom?_of_all_isDigit {cs : List Char} (h : ∀ c ∈ cs, c.isDigit = true)
    (read : Nat) : digitsFrom? 10 read cs = some (Nat.ofDigitChars 10 cs read) := by
  induction cs generalizing read with
  | nil => rfl
  | cons c cs ih =>
    have hc := digit?_of_isDigit (h c List.mem_cons_self)
    have hcs := ih (fun d hd => h d (List.mem_cons_of_mem c hd))
    simp [digitsFrom?, hc, hcs, Nat.ofDigitChars_cons]

/-- Written digits read back. -/
theorem digits?_ofNat (n : Nat) : digits? 10 (ofNat n) = some n := by
  have hdigits : ∀ c ∈ ofNat n, c.isDigit = true :=
    fun c hc => Nat.isDigit_of_mem_toDigits (by decide) (by decide) hc
  have hne : ofNat n ≠ [] := Nat.toDigits_ne_nil
  unfold digits?
  split
  · contradiction
  · rw [digitsFrom?_of_all_isDigit hdigits, ofNat, Nat.ofDigitChars_toDigits (by decide) (by decide)]

/-! ## Suffixes -/

/-- A numeral without its last character, if that is the given one. -/
def stripLast? (c : Char) (cs : List Char) : Option (List Char) :=
  if cs.getLast? = some c then some cs.dropLast else none

theorem stripLast?_append (c : Char) (cs : List Char) : stripLast? c (cs ++ [c]) = some cs := by
  simp [stripLast?]

theorem stripLast?_eq_some_iff {c : Char} {cs body : List Char} :
    stripLast? c cs = some body ↔ cs = body ++ [c] := by
  constructor
  · intro h
    simp only [stripLast?] at h
    split at h
    · obtain ⟨front, rfl⟩ := List.getLast?_eq_some_iff.1 ‹_›
      simp_all
    · simp at h
  · rintro rfl
    exact stripLast?_append c body

/-! ## Decimals -/

/-- What a decimal numeral says, before any rounding. -/
inductive Decimal where
  | nan
  | infinite (negative : Bool)
  | finite (negative : Bool) (digits : Nat) (exponent : Int)
  deriving DecidableEq, Repr

/-- The power of ten behind a significand: nothing, or a letter and digits behind an
optional sign. -/
def exponent? : List Char → Option Int
  | [] => some 0
  | 'e' :: cs | 'E' :: cs => signed? 10 cs
  | _ => none

/-- Reads the digits of a significand with an optional point among them, and an
exponent behind them. There must be a digit on one side of the point. -/
def significand? (negative : Bool) (cs : List Char) : Option Decimal :=
  let whole := cs.takeWhile Char.isDigit
  let rest := cs.dropWhile Char.isDigit
  let (fraction, rest) :=
    match rest with
    | '.' :: rest => (rest.takeWhile Char.isDigit, rest.dropWhile Char.isDigit)
    | rest => ([], rest)
  do
    let digits ← digits? 10 (whole ++ fraction)
    let exponent ← exponent? rest
    return .finite negative digits (exponent - fraction.length)

/-- Reads a decimal behind its sign: a word for a number that is not finite, in any
case of letters, or a significand. -/
def magnitude? (negative : Bool) (cs : List Char) : Option Decimal :=
  let lower := cs.map Char.toLower
  if lower = "inf".toList ∨ lower = "infinity".toList then some (.infinite negative)
  else if lower = "nan".toList then some .nan
  else significand? negative cs

/-- Reads a decimal behind an optional sign. -/
def decimal? : List Char → Option Decimal
  | '+' :: cs => magnitude? false cs
  | '-' :: cs => magnitude? true cs
  | cs => magnitude? false cs

end Numeral

end Camouflage
