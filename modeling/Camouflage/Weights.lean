/-!
# Strategies and their weights

At each level of the recursion a strategy is chosen at random, in proportion to a
weight. A schedule says how the weight of one strategy runs with the depth; a table
holds one schedule for each. All weights are 32-bit words, and a schedule that would
leave their range stays at its end.
-/

namespace Camouflage

/-- The ways to write a value at one level of the recursion. -/
inductive Strategy where
  /-- The literal itself. -/
  | plain
  /-- A sum of two values. -/
  | sum
  /-- A difference of two values. -/
  | difference
  /-- A product of two values, with a remainder if needed. -/
  | product
  /-- The value of a uniform, corrected by a value. -/
  | uniform
  deriving DecidableEq, Repr

namespace Strategy

/-- All strategies, in the order in which they are weighed. -/
def all : List Strategy := [plain, sum, difference, product, uniform]

theorem mem_all (s : Strategy) : s ∈ all := by cases s <;> simp [all]

end Strategy

/-- How a weight runs with the depth. -/
inductive Schedule where
  /-- The same weight at every depth. -/
  | constant (weight : UInt32)
  /-- Less by a step at each level, but never below zero. -/
  | decaying (initial step : UInt32)
  /-- More by a step at each level, up to the largest weight. -/
  | growing (initial step : UInt32)
  /-- One weight for each depth; the last holds from there on, and without any the
  weight is zero. -/
  | perDepth (weights : List UInt32)
  deriving DecidableEq, Repr

namespace Schedule

/-- The largest weight. -/
def limit : Nat := UInt32.size - 1

/-- The weight at a depth. -/
def weightAt (schedule : Schedule) (depth : Nat) : UInt32 :=
  match schedule with
  | constant weight => weight
  | decaying initial step => UInt32.ofNat (initial.toNat - step.toNat * depth)
  | growing initial step => UInt32.ofNat (min (initial.toNat + step.toNat * depth) limit)
  | perDepth weights => (weights[depth]?.or weights.getLast?).getD 0

theorem toNat_weightAt_decaying (initial step : UInt32) (depth : Nat) :
    ((decaying initial step).weightAt depth).toNat = initial.toNat - step.toNat * depth := by
  have := initial.toNat_lt
  simp only [Schedule.weightAt, UInt32.toNat_ofNat']
  exact Nat.mod_eq_of_lt (by omega)

theorem toNat_weightAt_growing (initial step : UInt32) (depth : Nat) :
    ((growing initial step).weightAt depth).toNat = min (initial.toNat + step.toNat * depth) limit := by
  simp only [Schedule.weightAt, UInt32.toNat_ofNat']
  exact Nat.mod_eq_of_lt (by simp only [limit, UInt32.size]; omega)

end Schedule

/-- A schedule for each strategy. -/
structure WeightTable where
  plain : Schedule
  sum : Schedule
  difference : Schedule
  product : Schedule
  uniform : Schedule
  deriving DecidableEq, Repr

namespace WeightTable

/-- The schedule of a strategy. -/
def schedule (table : WeightTable) : Strategy → Schedule
  | .plain => table.plain
  | .sum => table.sum
  | .difference => table.difference
  | .product => table.product
  | .uniform => table.uniform

/-- The weight of a strategy at a depth. -/
def weight (table : WeightTable) (strategy : Strategy) (depth : Nat) : UInt32 :=
  (table.schedule strategy).weightAt depth

/-- The table with the schedules that a function gives. -/
def ofFn (f : Strategy → Schedule) : WeightTable where
  plain := f .plain
  sum := f .sum
  difference := f .difference
  product := f .product
  uniform := f .uniform

theorem schedule_ofFn (f : Strategy → Schedule) (s : Strategy) : (ofFn f).schedule s = f s := by
  cases s <;> rfl

/-- Gives all weight to one strategy. At the depth limit a literal still ends the
recursion. -/
def only (strategy : Strategy) : WeightTable :=
  ofFn fun s => .constant (if s = strategy then 1 else 0)

/-- Composition is likely near the root and gives way to literals further down. -/
protected def default : WeightTable where
  plain := .growing 1 2
  sum := .decaying 6 1
  difference := .decaying 6 1
  product := .decaying 6 1
  uniform := .constant 3

instance : Inhabited WeightTable := ⟨.default⟩

end WeightTable

/-- What a run is configured with: the seed of its random source, the depth at which
the recursion ends, and the weights of the strategies. -/
structure Profile where
  seed : UInt64 := 0
  maxDepth : UInt32 := 5
  weights : WeightTable := .default
  deriving DecidableEq, Repr

end Camouflage
