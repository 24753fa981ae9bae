import Camouflage.Proofs.Outcome
import Camouflage.Random.ChaCha
import Mathlib.Algebra.GroupWithZero.Nat
import Mathlib.Order.Interval.Finset.Nat

/-!
# Choices fall in proportion to the weights

The entries of a choice divide the line of all points into stretches, one behind the other and
each as long as the weight of its entry (`Choice.placeAt?_eq_some_iff`). A draw below the length
of the line picks one point of it. So each entry is chosen at as many points as its weight says,
there is an entry at every point, and that one alone is run, from where the draw left the source
(`Choice.run_in_proportion`).
-/

namespace Camouflage

namespace Choice

variable {σ α β : Type}

/-! ## Stretches of the line -/

theorem length_eq_sum (entries : List (α × UInt32)) :
    length entries = (entries.map fun entry => entry.2.toNat).sum := by
  induction entries with
  | nil => rfl
  | cons entry entries ih => rw [length_cons, ih, List.map_cons, List.sum_cons]

/-- The point where the stretch of an entry starts: behind the entries in front of it. -/
def start (entries : List (α × UInt32)) (place : Nat) : Nat := length (entries.take place)

theorem start_zero (entries : List (α × UInt32)) : start entries 0 = 0 := rfl

theorem start_cons_succ (entry : α × UInt32) (entries : List (α × UInt32)) (place : Nat) :
    start (entry :: entries) (place + 1) = entry.2.toNat + start entries place := rfl

theorem start_eq_sum (entries : List (α × UInt32)) (place : Nat) :
    start entries place = ((entries.map fun entry => entry.2.toNat).take place).sum := by
  rw [start, length_eq_sum, List.map_take]

/-- The stretch of an entry is as long as its weight. -/
theorem start_succ {entries : List (α × UInt32)} {place : Nat} (h : place < entries.length) :
    start entries (place + 1) = start entries place + entries[place].2.toNat := by
  rw [start_eq_sum, start_eq_sum, List.sum_take_succ _ _ (by simpa using h), List.getElem_map]

theorem start_le_length (entries : List (α × UInt32)) (place : Nat) :
    start entries place ≤ length entries := by
  have hsplit := List.sum_take_add_sum_drop (entries.map fun entry => entry.2.toNat) place
  rw [start_eq_sum, length_eq_sum, ← hsplit]
  exact Nat.le_add_right _ _

/-- A point falls to the candidate in whose stretch it lies. -/
theorem at?_eq_some_iff {candidates : List (α × UInt32)} {point : Nat} {a : α} :
    at? candidates point = some a ↔ ∃ place, ∃ h : place < candidates.length,
      candidates[place].1 = a ∧ start candidates place ≤ point ∧
        point < start candidates (place + 1) := by
  induction candidates generalizing point with
  | nil => simp [at?]
  | cons head rest ih =>
    rw [at?]
    split
    · rename_i hfirst
      constructor
      · intro h
        refine ⟨0, Nat.succ_pos _, Option.some.inj h, Nat.zero_le _, ?_⟩
        rwa [start_cons_succ, start_zero, Nat.add_zero]
      · rintro ⟨place, hplace, hcandidate, hlow, -⟩
        cases place with
        | zero => exact congrArg some hcandidate
        | succ place =>
          rw [start_cons_succ] at hlow
          omega
    · rename_i hlater
      rw [ih]
      constructor
      · rintro ⟨place, hplace, hcandidate, hlow, hhigh⟩
        refine ⟨place + 1, Nat.succ_lt_succ hplace, hcandidate, ?_, ?_⟩
        · rw [start_cons_succ]
          omega
        · rw [start_cons_succ]
          omega
      · rintro ⟨place, hplace, hcandidate, hlow, hhigh⟩
        cases place with
        | zero =>
          rw [start_cons_succ, start_zero, Nat.add_zero] at hhigh
          exact absurd hhigh hlater
        | succ place =>
          rw [start_cons_succ] at hlow hhigh
          exact ⟨place, Nat.lt_of_succ_lt_succ hplace, hcandidate, by omega, by omega⟩

/-! ## Which entry is chosen -/

/-- The entries with their places for what they stand for. -/
def places (entries : List (α × UInt32)) : List (Nat × UInt32) :=
  entries.mapIdx fun place entry => (place, entry.2)

/-- The place of the entry that a point falls to. -/
def placeAt? (entries : List (α × UInt32)) (point : Nat) : Option Nat :=
  at? (line (places entries)) point

theorem map_weight_places (entries : List (α × UInt32)) :
    ((places entries).map fun entry => entry.2.toNat) = entries.map fun entry => entry.2.toNat :=
  List.ext_getElem (by simp [places]) fun place _ _ => by simp [places]

theorem length_places (entries : List (α × UInt32)) : length (places entries) = length entries := by
  rw [length_eq_sum, map_weight_places, ← length_eq_sum]

theorem start_places (entries : List (α × UInt32)) (place : Nat) :
    start (places entries) place = start entries place := by
  rw [start_eq_sum, map_weight_places, ← start_eq_sum]

theorem placeAt?_eq_some_iff {entries : List (α × UInt32)} {point place : Nat} :
    placeAt? entries point = some place ↔ place < entries.length ∧
      start entries place ≤ point ∧ point < start entries (place + 1) := by
  rw [placeAt?, at?_line, at?_eq_some_iff]
  simp only [start_places]
  constructor
  · rintro ⟨place', hplace, rfl, hstretch⟩
    simp only [places, List.getElem_mapIdx, List.length_mapIdx] at hplace hstretch ⊢
    exact ⟨hplace, hstretch⟩
  · rintro ⟨hplace, hstretch⟩
    exact ⟨place, by simpa [places] using hplace, by simp [places], hstretch⟩

/-- What a point falls to is the candidate of the entry at that place. -/
theorem at?_of_placeAt? {entries : List (α × UInt32)} {point place : Nat}
    (h : placeAt? entries point = some place) :
    ∃ hplace : place < entries.length, at? entries point = some entries[place].1 := by
  obtain ⟨hplace, hstretch⟩ := placeAt?_eq_some_iff.1 h
  exact ⟨hplace, at?_eq_some_iff.2 ⟨place, hplace, rfl, hstretch⟩⟩

/-- How the entries of a choice share the points of their line. -/
structure SharesLine (entries : List (α × UInt32)) : Prop where
  /-- An entry is chosen at the points of its stretch. -/
  stretch : ∀ point place, placeAt? entries point = some place ↔ place < entries.length ∧
    start entries place ≤ point ∧ point < start entries (place + 1)
  /-- Some entry is chosen at every point. -/
  covered : ∀ point < length entries, (placeAt? entries point).isSome
  /-- Each entry is chosen at as many points as its weight says. -/
  share : ∀ place, ∀ h : place < entries.length,
    ((Finset.range (length entries)).filter fun point => placeAt? entries point = some place).card =
      entries[place].2.toNat
  /-- An entry of weight zero is chosen nowhere. -/
  weightless : ∀ point place, ∀ h : place < entries.length, entries[place].2 = 0 →
    placeAt? entries point ≠ some place

theorem sharesLine (entries : List (α × UInt32)) : SharesLine entries where
  stretch _ _ := placeAt?_eq_some_iff
  covered point hpoint := by
    rw [placeAt?, at?_line]
    exact at?_isSome (by rwa [length_places])
  share place hplace := by
    have hpoints : ((Finset.range (length entries)).filter
        fun point => placeAt? entries point = some place) =
        Finset.Ico (start entries place) (start entries (place + 1)) := by
      have hend := start_le_length entries (place + 1)
      ext point
      rw [Finset.mem_filter, Finset.mem_range, Finset.mem_Ico, placeAt?_eq_some_iff]
      constructor
      · exact fun h => h.2.2
      · exact fun h => ⟨by omega, hplace, h⟩
    rw [hpoints, Nat.card_Ico, start_succ hplace, Nat.add_sub_cancel_left]
  weightless point place hplace hzero h := by
    obtain ⟨-, hlow, hhigh⟩ := placeAt?_eq_some_iff.1 h
    rw [start_succ hplace, hzero] at hhigh
    exact Nat.lt_irrefl _ (Nat.lt_of_le_of_lt hlow hhigh)

/-! ## What is run -/

variable [WordSource σ]

theorem run_choose {candidates : List (α × UInt32)} (h : total candidates ≠ 0) (source : σ) :
    (choose candidates).run source =
      (at? candidates ((Random.below64 (total candidates)).run source).1.toNat,
        ((Random.below64 (total candidates)).run source).2) := by
  rw [choose, if_neg h]
  rfl

/-- If the draw falls to an entry, that entry is run from where the draw left the source. -/
theorem run_line_of_placeAt? {entries : List (Alternative σ β × UInt32)} {source : σ} {place : Nat}
    (htotal : total entries ≠ 0)
    (h : placeAt? entries ((Random.below64 (total entries)).run source).1.toNat = some place) :
    ∃ hplace : place < entries.length, (run (line entries)).run source =
      (some <$> entries[place].1.thunk).run ((Random.below64 (total entries)).run source).2 := by
  obtain ⟨hplace, hat⟩ := at?_of_placeAt? h
  refine ⟨hplace, ?_⟩
  rw [run, choose_line, StateT.run_bind, run_choose htotal, hat]
  rfl

/-- The weights of fewer than two to the power of 32 entries are summed without wrapping. If the
sum is zero, nothing is chosen and nothing drawn. Otherwise one number below it is drawn, the one
entry at that point of the line is run from where the draw left the source, and its result is
the result. The entries share the points of the line as their weights say. -/
theorem run_in_proportion (entries : List (Alternative σ β × UInt32))
    (hfew : entries.length < 2 ^ 32) :
    (total (line entries)).toNat = length entries ∧ SharesLine entries ∧
      ∀ source : σ,
        (length entries = 0 → (run (line entries)).run source = (none, source)) ∧
        (length entries ≠ 0 → ∃ place, ∃ hplace : place < entries.length,
          let drawn := (Random.below64 (total (line entries))).run source
          let ran := entries[place].1.thunk.run drawn.2
          placeAt? entries drawn.1.toNat = some place ∧
            (run (line entries)).run source = (some ran.1, ran.2)) := by
  have htoNat := toNat_total hfew
  rw [total_line]
  refine ⟨htoNat, sharesLine entries, fun source => ⟨?_, ?_⟩⟩
  · intro hzero
    have htotal : total entries = 0 := UInt64.toNat_inj.1 (htoNat.trans hzero)
    rw [run, choose_line, choose, if_pos htotal]
    rfl
  · intro hpos
    have htotal : total entries ≠ 0 := by
      intro htotal
      rw [htotal] at htoNat
      exact hpos htoNat.symm
    have hpoint := Random.below64_lt htotal source
    rw [htoNat] at hpoint
    obtain ⟨place, hat⟩ := Option.isSome_iff_exists.1 ((sharesLine entries).covered _ hpoint)
    obtain ⟨hplace, hrun⟩ := run_line_of_placeAt? htotal hat
    exact ⟨place, hplace, hat, hrun⟩

/-- Of three entries one has no weight, and the last one draws on. -/
def sample : List (Alternative ChaCha UInt32 × UInt32) :=
  [(⟨.plain, pure 7⟩, 1), (⟨.product, pure 8⟩, 0), (⟨.sum, Random.below32 10⟩, 3)]

theorem run_in_proportion_sample : sample.length < 2 ^ 32 ∧
    ((Finset.range 4).filter fun point => placeAt? sample point = some 2).card = 3 ∧
    ∃ place, placeAt? sample ((Random.below64 4).run (ChaCha.ofSeed 0)).1.toNat = some place :=
  have hfew : sample.length < 2 ^ 32 := by decide
  have h := run_in_proportion sample hfew
  have hpos : length sample ≠ 0 := by decide
  ⟨hfew, h.2.1.share 2 (by decide), ((h.2.2 (ChaCha.ofSeed 0)).2 hpos).imp fun _ h => h.2.1⟩

end Choice

end Camouflage
