/-!
# Scalar types and shapes

The types an expression can have: six scalars, two of which are the abstract
types of literals that carry no suffix, and the vectors and matrices built over
them. Each type has a text, the spelling a shader would use where there is one.
-/

namespace Camouflage

/-- A scalar type. The abstract ones are the types of unsuffixed literals
before a concrete type is chosen for them. -/
inductive Scalar where
  | bool
  | i32
  | u32
  | abstractInt
  | f32
  | abstractFloat
  deriving DecidableEq, Repr

namespace Scalar

/-- All scalar types, in the order in which they are listed to a reader. -/
def all : List Scalar := [bool, i32, u32, abstractInt, f32, abstractFloat]

theorem mem_all (s : Scalar) : s ∈ all := by cases s <;> simp [all]

/-- Whether the values of the type are integers. -/
def isInteger : Scalar → Bool
  | i32 | u32 | abstractInt => true
  | bool | f32 | abstractFloat => false

/-- Whether the values of the type are floating point numbers. -/
def isFloat : Scalar → Bool
  | f32 | abstractFloat => true
  | bool | i32 | u32 | abstractInt => false

/-- Whether the type exists only before concretization. -/
def isAbstract : Scalar → Bool
  | abstractInt | abstractFloat => true
  | bool | i32 | u32 | f32 => false

/-- The word that names the type in a shader. Abstract types cannot be written. -/
def keyword? : Scalar → Option String
  | bool => some "bool"
  | i32 => some "i32"
  | u32 => some "u32"
  | f32 => some "f32"
  | abstractInt | abstractFloat => none

/-- The name of the type in texts: its keyword, or a name in braces that no
shader can contain. -/
def text : Scalar → String
  | bool => "bool"
  | i32 => "i32"
  | u32 => "u32"
  | f32 => "f32"
  | abstractInt => "\x7bAbstractInt\x7d"
  | abstractFloat => "\x7bAbstractFloat\x7d"

theorem text_of_keyword? {s : Scalar} {word : String} (h : s.keyword? = some word) :
    s.text = word := by
  cases s <;> simp_all [keyword?, text]

theorem keyword?_isSome (s : Scalar) : s.keyword?.isSome = !s.isAbstract := by
  cases s <;> rfl

end Scalar

/-- The number of components along one side of a vector or matrix. -/
inductive Extent where
  | two
  | three
  | four
  deriving DecidableEq, Repr

namespace Extent

def toNat : Extent → Nat
  | two => 2
  | three => 3
  | four => 4

end Extent

/-- The shape of a value: one scalar, or a vector or matrix of them. -/
inductive Shape where
  | scalar (s : Scalar)
  | vector (size : Extent) (s : Scalar)
  | matrix (columns rows : Extent) (s : Scalar)
  deriving DecidableEq, Repr

namespace Shape

/-- The scalar type of a shape that is a single scalar. -/
def scalar? : Shape → Option Scalar
  | scalar s => some s
  | vector .. | matrix .. => none

/-- The name of the shape: a matrix states its columns before its rows. -/
def text : Shape → String
  | scalar s => s.text
  | vector size s => "vec" ++ size.toNat.repr ++ "<" ++ s.text ++ ">"
  | matrix columns rows s =>
    "mat" ++ columns.toNat.repr ++ "x" ++ rows.toNat.repr ++ "<" ++ s.text ++ ">"

end Shape

end Camouflage
