import Camouflage.Json
import Camouflage.Scalar

/-!
# Shapes as JSON

A scalar type and an extent are variants without data, and a shape is a variant with
data.
-/

namespace Camouflage

/-- The value of a list that goes by a name. -/
def ofName? {α : Type} (name : α → String) (candidates : List α) (s : String) : Option α :=
  candidates.find? (name · == s)

namespace Scalar

/-- The name of a scalar type in serialized form. -/
def name : Scalar → String
  | bool => "Bool"
  | i32 => "I32"
  | u32 => "U32"
  | abstractInt => "AbstractInt"
  | f32 => "F32"
  | abstractFloat => "AbstractFloat"

def toJson (s : Scalar) : Json := .string s.name

def ofJson? (j : Json) : Option Scalar := do ofName? name all (← j.unit?)

theorem ofJson?_toJson (s : Scalar) : ofJson? s.toJson = some s := by cases s <;> decide

end Scalar

namespace Extent

/-- All extents. -/
def all : List Extent := [two, three, four]

/-- The name of an extent in serialized form. -/
def name : Extent → String
  | two => "Bi"
  | three => "Tri"
  | four => "Quad"

def toJson (n : Extent) : Json := .string n.name

def ofJson? (j : Json) : Option Extent := do ofName? name all (← j.unit?)

theorem ofJson?_toJson (n : Extent) : ofJson? n.toJson = some n := by cases n <;> decide

end Extent

namespace Shape

def toJson : Shape → Json
  | scalar s => .tagged "Scalar" s.toJson
  | vector size s => .tagged "Vector" (.object [("scalar", s.toJson), ("size", size.toJson)])
  | matrix columns rows s =>
    .tagged "Matrix" <| .object
      [("columns", columns.toJson), ("rows", rows.toJson), ("scalar", s.toJson)]

def ofJson? (j : Json) : Option Shape := do
  let (tag, body) ← j.variant?
  if tag = "Scalar" then
    return scalar (← Scalar.ofJson? body)
  else if tag = "Vector" then
    let [size, s] ← body.record? ["size", "scalar"] | none
    return vector (← Extent.ofJson? size) (← Scalar.ofJson? s)
  else if tag = "Matrix" then
    let [columns, rows, s] ← body.record? ["columns", "rows", "scalar"] | none
    return matrix (← Extent.ofJson? columns) (← Extent.ofJson? rows) (← Scalar.ofJson? s)
  else
    none

end Shape

end Camouflage
