import Camouflage.Json.Shape
import Camouflage.Weights

/-!
# Weight tables and profiles as JSON

A constant schedule is a number and one per depth an array; the others are records. A
table has a field for each strategy, and a profile has one for each of its settings.
-/

namespace Camouflage

namespace Strategy

/-- The name of a strategy in serialized form. -/
def name : Strategy → String
  | plain => "Plain"
  | sum => "Sum"
  | difference => "Difference"
  | product => "Product"
  | uniform => "DerivedFromUniform"

def toJson (s : Strategy) : Json := .string s.name

def ofJson? (j : Json) : Option Strategy := do ofName? name all (← j.unit?)

theorem ofJson?_toJson (s : Strategy) : ofJson? s.toJson = some s := by cases s <;> decide

/-- The field of a table that holds the schedule of a strategy. -/
def field : Strategy → String
  | plain => "plain_known_value"
  | sum => "sum_of_known_values"
  | difference => "difference_of_known_values"
  | product => "product_of_known_values"
  | uniform => "known_value_derived_from_uniform"

end Strategy

namespace Schedule

/-- A schedule that runs by steps. -/
def slopeToJson (initial step : UInt32) : Json :=
  .object [("initial", .ofNat initial.toNat), ("step", .ofNat step.toNat)]

def slopeOfJson? (j : Json) : Option (UInt32 × UInt32) := do
  let [initial, step] ← j.record? ["initial", "step"] | none
  return (← initial.uint32?, ← step.uint32?)

def toJson : Schedule → Json
  | constant weight => .tagged "Constant" (.ofNat weight.toNat)
  | decaying initial step => .tagged "Decaying" (slopeToJson initial step)
  | growing initial step => .tagged "Growing" (slopeToJson initial step)
  | perDepth weights => .tagged "PerDepth" (.array (weights.map fun w => .ofNat w.toNat))

def ofJson? (j : Json) : Option Schedule := do
  let (tag, body) ← j.variant?
  if tag = "Constant" then
    return constant (← body.uint32?)
  else if tag = "Decaying" then
    let (initial, step) ← slopeOfJson? body
    return decaying initial step
  else if tag = "Growing" then
    let (initial, step) ← slopeOfJson? body
    return growing initial step
  else if tag = "PerDepth" then
    return perDepth (← (← body.array?).mapM Json.uint32?)
  else
    none

end Schedule

namespace WeightTable

def toJson (table : WeightTable) : Json :=
  .object (Strategy.all.map fun s => (s.field, (table.schedule s).toJson))

def ofJson? (j : Json) : Option WeightTable := do
  let fields ← j.record? (Strategy.all.map Strategy.field)
  let [plain, sum, difference, product, uniform] ← fields.mapM Schedule.ofJson? | none
  return { plain, sum, difference, product, uniform }

end WeightTable

namespace Profile

def toJson (p : Profile) : Json :=
  .object [
    ("known_value_weights", p.weights.toJson),
    ("max_depth", .ofNat p.maxDepth.toNat),
    ("seed", .ofNat p.seed.toNat)
  ]

def ofJson? (j : Json) : Option Profile := do
  let [seed, maxDepth, weights] ← j.record? ["seed", "max_depth", "known_value_weights"] | none
  return {
    seed := ← seed.uint64?
    maxDepth := ← maxDepth.uint32?
    weights := ← WeightTable.ofJson? weights
  }

end Profile

end Camouflage
