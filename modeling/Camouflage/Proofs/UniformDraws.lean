import Camouflage.Proofs.Outcome
import Camouflage.Random.ChaCha
import Mathlib.Algebra.BigOperators.Group.Finset.Basic
import Mathlib.Algebra.Order.Floor.Div
import Mathlib.Order.Interval.Finset.Nat

/-!
# Draws are uniform

Scaling takes equally many words to each result below a bound, and rejects at most half of all
words (`Random.Fair`). A draw is what the first accepted word is scaled to, behind nothing but
rejected ones (`Random.IsDraw`), so each of its results is as likely as any other
(`Random.draws_uniform`).
-/

namespace Camouflage

namespace Random

variable {width bound : Nat}

/-! ## What a word is scaled to -/

/-- The bound, doubled as often as the width allows, lies between half of the number of words and
all of it. -/
theorem doubled_bound (hpos : 0 < bound) (hbound : bound < words width) :
    words width ≤ 2 * (bound * 2 ^ leadingZeros width bound) ∧
      bound * 2 ^ leadingZeros width bound ≤ words width := by
  have hlog : bound.log2 < width := (Nat.log2_lt hpos.ne').2 hbound
  have hlow : 2 ^ bound.log2 ≤ bound := Nat.log2_self_le hpos.ne'
  have hhigh : bound < 2 ^ (bound.log2 + 1) := Nat.lt_log2_self
  have hwidth : width = bound.log2 + 1 + leadingZeros width bound := by
    rw [leadingZeros]
    omega
  have hwords : words width = 2 ^ (bound.log2 + 1) * 2 ^ leadingZeros width bound := by
    rw [← Nat.pow_add, ← hwidth]
    rfl
  rw [hwords]
  constructor
  · rw [Nat.pow_succ', Nat.mul_assoc]
    exact Nat.mul_le_mul_left 2 (Nat.mul_le_mul_right _ hlow)
  · exact Nat.mul_le_mul_right _ hhigh.le

/-- A word leads to a result if its product with the bound is not too far behind the multiple of
the number of words at which the result starts. -/
theorem scale?_eq_some_iff (hpos : 0 < bound) (hbound : bound < words width) {word n : Nat} :
    scale? width bound word = some n ↔ n * words width ≤ word * bound ∧
      word * bound < n * words width + bound * 2 ^ leadingZeros width bound := by
  have hzone : zone width bound + 1 = bound * 2 ^ leadingZeros width bound :=
    Nat.sub_add_cancel (Nat.mul_pos hpos (Nat.two_pow_pos _))
  have hle := (doubled_bound hpos hbound).2
  have hsplit := Nat.div_add_mod' (word * bound) (words width)
  rw [scale?, ← hzone]
  constructor
  · intro h
    split at h
    · obtain rfl := Option.some.inj h
      omega
    · cases h
  · rintro ⟨hlow, hhigh⟩
    have hdiv : word * bound / words width = n :=
      Nat.div_eq_of_lt_le hlow (by rw [Nat.succ_mul]; omega)
    rw [hdiv] at hsplit ⊢
    rw [if_pos (by omega)]

/-- Among the multiples of a bound, so many in a row lie in a stretch of as many times the
bound, wherever it starts. -/
theorem mem_stretch_iff (hpos : 0 < bound) {offset many word : Nat} :
    offset ≤ word * bound ∧ word * bound < offset + bound * many ↔
      word ∈ Finset.Ico (offset ⌈/⌉ bound) (offset ⌈/⌉ bound + many) := by
  have hstart : ∀ m, offset ⌈/⌉ bound ≤ m ↔ offset ≤ m * bound := by
    intro m
    rw [ceilDiv_le_iff_le_mul hpos, Nat.mul_comm]
  rw [Finset.mem_Ico, hstart]
  refine and_congr_right fun _ => ?_
  rcases Nat.lt_or_ge word many with hword | hword
  · have hlt : word * bound < bound * many := by
      rw [Nat.mul_comm bound]
      exact Nat.mul_lt_mul_of_pos_right hword hpos
    constructor
    · omega
    · omega
  · have hback := hstart (word - many)
    rw [Nat.sub_mul, Nat.mul_comm many] at hback
    have hle : bound * many ≤ word * bound := by
      rw [Nat.mul_comm]
      exact Nat.mul_le_mul_right bound hword
    omega

/-- What the words of a width do for a bound. -/
structure Fair (width bound : Nat) : Prop where
  /-- Equally many words lead to each number below the bound. -/
  share : ∀ n < bound,
    ((Finset.range (words width)).filter fun word => scale? width bound word = some n).card =
      2 ^ leadingZeros width bound
  /-- Every other word is rejected. -/
  lt : ∀ word < words width, ∀ n, scale? width bound word = some n → n < bound
  /-- At least half of the words are accepted. -/
  half : words width ≤
    2 * ((Finset.range (words width)).filter fun word => (scale? width bound word).isSome).card

theorem card_scale? (hpos : 0 < bound) (hbound : bound < words width) {n : Nat} (hn : n < bound) :
    ((Finset.range (words width)).filter fun word => scale? width bound word = some n).card =
      2 ^ leadingZeros width bound := by
  have hle := (doubled_bound hpos hbound).2
  have hwords : ((Finset.range (words width)).filter fun word => scale? width bound word = some n) =
      Finset.Ico (n * words width ⌈/⌉ bound)
        (n * words width ⌈/⌉ bound + 2 ^ leadingZeros width bound) := by
    ext word
    rw [Finset.mem_filter, Finset.mem_range, scale?_eq_some_iff hpos hbound, mem_stretch_iff hpos]
    refine ⟨And.right, fun h => ⟨?_, h⟩⟩
    have hhigh := ((mem_stretch_iff hpos).2 h).2
    have hstart : (n + 1) * words width ≤ bound * words width := Nat.mul_le_mul_right _ hn
    rw [Nat.succ_mul] at hstart
    exact Nat.lt_of_mul_lt_mul_right (a := bound) (by rw [Nat.mul_comm (words width)]; omega)
  rw [hwords, Nat.card_Ico, Nat.add_sub_cancel_left]

/-- The accepted words are those that lead to the numbers below the bound. -/
theorem card_accepted (hpos : 0 < bound) (hbound : bound < words width) :
    ((Finset.range (words width)).filter fun word => (scale? width bound word).isSome).card =
      bound * 2 ^ leadingZeros width bound := by
  rw [Finset.card_eq_sum_card_fiberwise (f := fun word => (scale? width bound word).getD 0)
    (t := Finset.range bound)]
  · have hfiber : ∀ n ∈ Finset.range bound,
        (((Finset.range (words width)).filter fun word => (scale? width bound word).isSome).filter
          fun word => (scale? width bound word).getD 0 = n).card = 2 ^ leadingZeros width bound := by
      intro n hn
      rw [← card_scale? hpos hbound (Finset.mem_range.1 hn), Finset.filter_filter]
      refine congrArg Finset.card (Finset.filter_congr fun word _ => ?_)
      cases scale? width bound word with
      | none => simp
      | some m => simp
    rw [Finset.sum_congr rfl hfiber, Finset.sum_const, Finset.card_range, smul_eq_mul]
  · intro word hword
    obtain ⟨hrange, haccepted⟩ := Finset.mem_filter.1 hword
    obtain ⟨n, hn⟩ := Option.isSome_iff_exists.1 haccepted
    simp only [Finset.coe_range, Set.mem_Iio, hn, Option.getD_some]
    exact lt_of_scale? (Finset.mem_range.1 hrange) hpos hn

theorem fair (hpos : 0 < bound) (hbound : bound < words width) : Fair width bound where
  share n hn := card_scale? hpos hbound hn
  lt word hword n h := lt_of_scale? hword hpos h
  half := by
    rw [card_accepted hpos hbound]
    exact (doubled_bound hpos hbound).1

/-! ## Draws -/

section

variable {σ : Type}

/-- From a state of the source on, words are rejected until one leads to a number, which leaves
the source in a further state. -/
inductive Takes (width bound : Nat) (word : StateM σ Nat) : σ → Nat → σ → Prop
  | accept {source n} : scale? width bound (word.run source).1 = some n →
      Takes width bound word source n (word.run source).2
  | reject {source n after} : scale? width bound (word.run source).1 = none →
      Takes width bound word (word.run source).2 n after → Takes width bound word source n after

/-- All of so many words from a state of the source on are rejected. -/
def Barren (width bound : Nat) (word : StateM σ Nat) : (tries : Nat) → σ → Prop
  | 0, _ => True
  | tries + 1, source =>
    scale? width bound (word.run source).1 = none ∧ Barren width bound word tries (word.run source).2

/-- An accepted word ends the draw, a rejected one leaves it to the words behind. -/
theorem run_scaled_succ (word : StateM σ Nat) (tries : Nat) (source : σ) :
    (scaled width bound word (tries + 1)).run source =
      match scale? width bound (word.run source).1 with
      | some n => (n, (word.run source).2)
      | none => (scaled width bound word tries).run (word.run source).2 := by
  rw [scaled, StateT.run_bind]
  show StateT.run _ (word.run source).2 = _
  cases scale? width bound (word.run source).1 with
  | some n => rfl
  | none => rfl

/-- The draw takes the first accepted word, if there is one among so many. -/
theorem scaled_takes (word : StateM σ Nat) (tries : Nat) (source : σ) :
    Takes width bound word source ((scaled width bound word tries).run source).1
        ((scaled width bound word tries).run source).2 ∨
      Barren width bound word tries source := by
  induction tries generalizing source with
  | zero => exact .inr trivial
  | succ tries ih =>
    rw [run_scaled_succ]
    cases hscale : scale? width bound (word.run source).1 with
    | some n => exact .inl (.accept hscale)
    | none => exact (ih (word.run source).2).imp (.reject hscale) fun h => ⟨hscale, h⟩

variable [WordSource σ]

/-- A step draws a number below a bound, counted from a lowest one, by words of a width. Only if a
whole period of words is rejected, where no draw could ever end, is the number not that of an
accepted word. -/
structure IsDraw (width bound : Nat) (word : StateM σ Nat) (lowest : Nat) (step : StateM σ Nat) :
    Prop where
  mem : ∀ source, lowest ≤ (step.run source).1 ∧ (step.run source).1 < lowest + bound
  takes : ∀ source, (∃ n, (step.run source).1 = lowest + n ∧
    Takes width bound word source n (step.run source).2) ∨
      Barren width bound word (WordSource.period σ) source

/-- A drawn number may be kept in another type, as long as it can be read back from there. -/
theorem isDraw_below {α : Type} {word : StateM σ Nat} {lowest : Nat} (hpos : 0 < bound)
    (hword : ∀ source, (word.run source).1 < words width) {value : α → Nat} (keep : Nat → α)
    (hkeep : ∀ n < bound, value (keep n) = lowest + n) :
    IsDraw width bound word lowest (value <$> keep <$> below width bound word) where
  mem source := by
    have hlt := below_lt hpos hword source
    have hvalue : ((value <$> keep <$> below width bound word).run source).1 =
        lowest + ((below width bound word).run source).1 := hkeep _ hlt
    rw [hvalue]
    omega
  takes source :=
    (scaled_takes word _ source).imp_left fun h => ⟨_, hkeep _ (below_lt hpos hword source), h⟩

/-- The next word of 32 bits, as a number. -/
def nat32 : StateM σ Nat := do return (← word32).toNat

/-- The next word of 64 bits, as a number. -/
def nat64 : StateM σ Nat := do return (← word64).toNat

theorem nat32_lt (source : σ) : ((nat32 : StateM σ Nat).run source).1 < words 32 :=
  (WordSource.next source).1.toNat_lt

theorem nat64_lt (source : σ) : ((nat64 : StateM σ Nat).run source).1 < words 64 :=
  (word64.run source).1.toNat_lt

theorem isDraw_below32 {bound : UInt32} (h : bound ≠ 0) :
    IsDraw 32 bound.toNat nat32 0 (UInt32.toNat <$> (below32 bound : StateM σ UInt32)) := by
  have hpos : 0 < bound.toNat := Nat.pos_of_ne_zero fun hzero => h (UInt32.toNat_inj.1 hzero)
  have hsize := bound.toNat_lt
  rw [below32, if_neg h]
  refine isDraw_below hpos nat32_lt UInt32.ofNat fun n hn => ?_
  rw [UInt32.toNat_ofNat_of_lt' (by rw [UInt32.size]; omega), Nat.zero_add]

theorem isDraw_below64 {bound : UInt64} (h : bound ≠ 0) :
    IsDraw 64 bound.toNat nat64 0 (UInt64.toNat <$> (below64 bound : StateM σ UInt64)) := by
  have hpos : 0 < bound.toNat := Nat.pos_of_ne_zero fun hzero => h (UInt64.toNat_inj.1 hzero)
  have hsize := bound.toNat_lt
  rw [below64, if_neg h]
  refine isDraw_below hpos nat64_lt UInt64.ofNat fun n hn => ?_
  rw [UInt64.toNat_ofNat_of_lt' (by rw [UInt64.size]; omega), Nat.zero_add]

theorem isDraw_between {low high : UInt32} (h : low ≤ high) :
    IsDraw 32 (high.toNat - low.toNat + 1) nat32 low.toNat
      (UInt32.toNat <$> (between low high : StateM σ UInt32)) := by
  have hle : low.toNat ≤ high.toNat := UInt32.le_iff_toNat_le.1 h
  have hsize := high.toNat_lt
  rw [between, if_neg (by rw [UInt32.lt_iff_toNat_lt]; omega)]
  refine isDraw_below (Nat.succ_pos _) nat32_lt (fun n => UInt32.ofNat (low.toNat + n))
    fun n hn => ?_
  rw [UInt32.toNat_ofNat_of_lt' (by rw [UInt32.size]; omega)]

/-- With as many results as there are words, each word is its own result. -/
theorem scale?_words (width word : Nat) : scale? width (words width) word = some word := by
  rw [scale?, Nat.mul_mod_left, if_pos (Nat.zero_le _), Nat.mul_div_cancel _ (words_pos width)]

theorem below_words (hperiod : 0 < WordSource.period σ) (width : Nat) (word : StateM σ Nat) :
    below width (words width) word = word := by
  obtain ⟨tries, htries⟩ := Nat.exists_eq_add_one.2 hperiod
  refine StateT.ext fun source => ?_
  rw [below, htries, run_scaled_succ, scale?_words]
  rfl

theorem between_all (hperiod : 0 < WordSource.period σ) :
    (between 0 4294967295 : StateM σ UInt32) = word32 := by
  have hwords : (4294967295 : UInt32).toNat - (0 : UInt32).toNat + 1 = words 32 := by decide
  rw [between, if_neg (by decide), hwords, below_words hperiod]
  simp only [UInt32.toNat_zero, Nat.zero_add, bind_assoc, pure_bind, UInt32.ofNat_toNat, bind_pure]

/-- A bound of less than all words is met by equally many words for each result, and by at least
half of all words. The draws below a bound and between two limits give what the first word that
is accepted leads to; between the least and the greatest limit that is the word itself. Where no
number can be drawn, none is: the result is zero, or the lower limit, and no word is taken. -/
theorem draws_uniform (hperiod : 0 < WordSource.period σ) :
    (∀ width bound, 1 ≤ bound → bound < words width → Fair width bound) ∧
    (∀ bound : UInt32, bound ≠ 0 →
      IsDraw 32 bound.toNat nat32 0 (UInt32.toNat <$> (below32 bound : StateM σ UInt32))) ∧
    (∀ bound : UInt64, bound ≠ 0 →
      IsDraw 64 bound.toNat nat64 0 (UInt64.toNat <$> (below64 bound : StateM σ UInt64))) ∧
    (∀ low high : UInt32, low ≤ high →
      IsDraw 32 (high.toNat - low.toNat + 1) nat32 low.toNat
        (UInt32.toNat <$> (between low high : StateM σ UInt32))) ∧
    (between 0 4294967295 : StateM σ UInt32) = word32 ∧
    (below32 0 : StateM σ UInt32) = pure 0 ∧ (below64 0 : StateM σ UInt64) = pure 0 ∧
    ∀ low high : UInt32, high < low → (between low high : StateM σ UInt32) = pure low :=
  ⟨fun _ _ => fair, fun _ => isDraw_below32, fun _ => isDraw_below64, fun _ _ => isDraw_between,
    between_all hperiod, if_pos rfl, if_pos rfl, fun _ _ h => if_pos h⟩

theorem draws_uniform_chaCha : 0 < WordSource.period ChaCha ∧ Fair 32 10 ∧
    IsDraw 32 10 nat32 0 (UInt32.toNat <$> (below32 10 : StateM ChaCha UInt32)) ∧
    (between 0 4294967295 : StateM ChaCha UInt32) = word32 :=
  have hperiod : 0 < WordSource.period ChaCha := by decide
  have h := draws_uniform hperiod
  ⟨hperiod, h.1 32 10 (by decide) (by decide), h.2.1 10 (by decide), h.2.2.2.2.1⟩

end

end Random

end Camouflage
