/-!
# Random draws

All randomness comes from a source of 32-bit words, which is passed along as a state.
A number below a bound is drawn by scaling a word down and rejecting the few words
that would favour some results: of the accepted words, equally many lead to each
result (`scale?`).
-/

namespace Camouflage

/-- A source of random words. After its period the words repeat. -/
class WordSource (σ : Type) where
  next : σ → UInt32 × σ
  period : Nat

namespace Random

/-! ## Scaling a word -/

/-- The number of words of a width. -/
def words (width : Nat) : Nat := Nat.pow 2 width

theorem words_pos (width : Nat) : 0 < words width := Nat.two_pow_pos width

/-- The number of zero bits in front of a positive number in a word of a width. -/
def leadingZeros (width n : Nat) : Nat := width - 1 - n.log2

/-- The largest fraction of a scaled word that is accepted. The number of accepted
fractions is the bound, doubled as often as the width allows, so it is a multiple of
the bound and more than half of all fractions. -/
def zone (width bound : Nat) : Nat := bound * Nat.pow 2 (leadingZeros width bound) - 1

/-- A word scaled to the numbers below a bound: the product of both has the result in
front of the word's width and a fraction behind it, and a word whose fraction lies
beyond the zone is rejected. A bound of two to the power of the width accepts every
word as it is. -/
def scale? (width bound word : Nat) : Option Nat :=
  let product := word * bound
  if product % words width ≤ zone width bound then some (product / words width) else none

/-- Every result is below the bound. -/
theorem lt_of_scale? {width bound word n : Nat} (hword : word < words width) (hbound : 0 < bound)
    (h : scale? width bound word = some n) : n < bound := by
  simp only [scale?] at h
  split at h
  · obtain rfl := Option.some.inj h
    rw [Nat.div_lt_iff_lt_mul (words_pos width), Nat.mul_comm bound]
    exact Nat.mul_lt_mul_of_pos_right hword hbound
  · simp at h

/-! ## Draws -/

variable {σ : Type} [WordSource σ]

/-- The next word. -/
def word32 : StateM σ UInt32 := fun s => WordSource.next s

/-- The next two words, the low half first. -/
def word64 : StateM σ UInt64 := do
  let low ← word32
  let high ← word32
  return high.toUInt64 <<< 32 ||| low.toUInt64

/-- Draws words until one is accepted, at most so many. -/
def scaled (width bound : Nat) (word : StateM σ Nat) : Nat → StateM σ Nat
  | 0 => pure 0
  | tries + 1 => do
    match scale? width bound (← word) with
    | some n => return n
    | none => scaled width bound word tries

/-- A number below a positive bound. When a whole period holds no accepted word, none
will ever come, and the result is zero. -/
def below (width bound : Nat) (word : StateM σ Nat) : StateM σ Nat :=
  scaled width bound word (WordSource.period σ)

/-- A number below a bound of 32 bits, or zero without a draw if there is none. -/
def below32 (bound : UInt32) : StateM σ UInt32 :=
  if bound = 0 then
    pure 0
  else do
    let n ← below 32 bound.toNat do return (← word32).toNat
    return UInt32.ofNat n

/-- A number below a bound of 64 bits, or zero without a draw if there is none. -/
def below64 (bound : UInt64) : StateM σ UInt64 :=
  if bound = 0 then
    pure 0
  else do
    let n ← below 64 bound.toNat do return (← word64).toNat
    return UInt64.ofNat n

/-- A number from `low` to `high`, both included, or `low` without a draw if there is
none. -/
def between (low high : UInt32) : StateM σ UInt32 :=
  if high < low then
    pure low
  else do
    let n ← below 32 (high.toNat - low.toNat + 1) do return (← word32).toNat
    return UInt32.ofNat (low.toNat + n)

/-- The first bit of a word. -/
def coin : StateM σ Bool := do
  return 2147483648 ≤ (← word32).toNat

/-- An element of a list, or none without a draw if there is none. -/
def element? {α : Type} (xs : List α) : StateM σ (Option α) :=
  if xs.isEmpty then
    pure none
  else do
    let bound := UInt32.ofNat (min xs.length (UInt32.size - 1))
    return xs[(← below32 bound).toNat]?

/-- A drawn element is one of the list. -/
theorem mem_of_element? {α : Type} {xs : List α} {x : α} {source : σ}
    (h : ((element? xs).run source).1 = some x) : x ∈ xs := by
  unfold element? at h
  cases xs with
  | nil => cases h
  | cons y ys => exact List.mem_of_getElem? h

end Random

end Camouflage
