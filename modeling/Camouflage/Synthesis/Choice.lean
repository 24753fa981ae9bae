import Camouflage.Random.Source
import Camouflage.Weights

/-!
# Weighted choice

One draw below the total of the weights falls to one of the candidates, which lie side
by side on a line, each as long as its weight. A candidate may stand for a computation:
only the one that the draw falls to is run, and it goes on from where the draw left the
source.
-/

namespace Camouflage

namespace Choice

variable {σ α β : Type}

/-! ## The line -/

/-- Puts a candidate at the end of the line, unless its weight is zero. -/
def add (candidates : List (α × UInt32)) (candidate : α) (weight : UInt32) : List (α × UInt32) :=
  if weight = 0 then candidates else candidates ++ [(candidate, weight)]

/-- The line of entries that are added one by one. -/
def line (entries : List (α × UInt32)) : List (α × UInt32) :=
  entries.foldl (fun candidates entry => add candidates entry.1 entry.2) []

/-- The candidate at a point of the line. -/
def at? : List (α × UInt32) → Nat → Option α
  | [], _ => none
  | (candidate, weight) :: rest, point =>
    if point < weight.toNat then some candidate else at? rest (point - weight.toNat)

/-- The length of the line. -/
def total : List (α × UInt32) → UInt64
  | [] => 0
  | (_, weight) :: rest => weight.toUInt64 + total rest

/-- A line holds the entries whose weight is not zero, in their order. -/
theorem line_eq_filter (entries : List (α × UInt32)) :
    line entries = entries.filter fun entry => entry.2 ≠ 0 := by
  suffices hadd : ∀ candidates : List (α × UInt32),
      entries.foldl (fun candidates entry => add candidates entry.1 entry.2) candidates =
        candidates ++ entries.filter fun entry => entry.2 ≠ 0 from hadd []
  induction entries with
  | nil => simp
  | cons entry entries ih =>
    intro candidates
    rw [List.foldl_cons, ih, add]
    by_cases hzero : entry.2 = 0
    · simp [hzero]
    · simp [hzero]

theorem line_cons (entry : α × UInt32) (entries : List (α × UInt32)) :
    line (entry :: entries) = if entry.2 = 0 then line entries else entry :: line entries := by
  rw [line_eq_filter, line_eq_filter, List.filter_cons]
  by_cases hzero : entry.2 = 0
  · rw [if_pos hzero, if_neg (by simpa using hzero)]
  · rw [if_neg hzero, if_pos (by simpa using hzero)]

/-- What has no weight takes no point of the line. -/
theorem at?_line (entries : List (α × UInt32)) (point : Nat) :
    at? (line entries) point = at? entries point := by
  induction entries generalizing point with
  | nil => rfl
  | cons entry entries ih =>
    rw [line_cons, at?]
    by_cases hzero : entry.2 = 0
    · simp [hzero, ih]
    · rw [if_neg hzero, at?, ih]

theorem total_line (entries : List (α × UInt32)) : total (line entries) = total entries := by
  induction entries with
  | nil => rfl
  | cons entry entries ih =>
    rw [line_cons, total]
    by_cases hzero : entry.2 = 0
    · simp [hzero, ih]
    · rw [if_neg hzero, total, ih]

/-- What the candidates stand for has no part in where a point falls. -/
theorem at?_map (f : α → β) (candidates : List (α × UInt32)) (point : Nat) :
    at? (candidates.map fun entry => (f entry.1, entry.2)) point = (at? candidates point).map f := by
  induction candidates generalizing point with
  | nil => rfl
  | cons entry candidates ih =>
    rw [List.map_cons, at?, at?, ih]
    split
    · rfl
    · rfl

theorem total_map (f : α → β) (candidates : List (α × UInt32)) :
    total (candidates.map fun entry => (f entry.1, entry.2)) = total candidates := by
  induction candidates with
  | nil => rfl
  | cons entry candidates ih => rw [List.map_cons, total, total, ih]

/-! ## Choices -/

variable [WordSource σ]

/-- Chooses a candidate, each as often as its weight says. There is no choice, and no
draw, if all weights are zero. -/
def choose (candidates : List (α × UInt32)) : StateM σ (Option α) :=
  if total candidates = 0 then
    pure none
  else do
    return at? candidates (← Random.below64 (total candidates)).toNat

/-- A way to go on that waits to be chosen, and the strategy that it belongs to. -/
structure Alternative (σ β : Type) where
  strategy : Strategy
  thunk : StateM σ β

/-- Chooses an alternative and runs it, if there is one to choose. -/
def run (alternatives : List (Alternative σ β × UInt32)) : StateM σ (Option β) := do
  match ← choose alternatives with
  | some alternative => return some (← alternative.thunk)
  | none => return none

theorem choose_line (entries : List (α × UInt32)) :
    (choose (line entries) : StateM σ (Option α)) = choose entries := by
  simp only [choose, total_line, at?_line]

theorem choose_map (f : α → β) (candidates : List (α × UInt32)) :
    (choose (candidates.map fun entry => (f entry.1, entry.2)) : StateM σ (Option β)) =
      Option.map f <$> choose candidates := by
  simp only [choose, total_map, at?_map]
  split
  · rfl
  · rfl

end Choice

end Camouflage
