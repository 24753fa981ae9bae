import Camouflage.Binary.Arithmetic
import Camouflage.Expr.Text
import Camouflage.Failure

/-!
# Reading literals

The number that a literal denotes, as double precision holds it. The last letter of a
literal states its type: an `i` or a `u` behind an integer, an `f` or an `h` behind a
float. Reading drops it, since a number is asked for and not a value of a type.
-/

namespace Camouflage

namespace Literal

/-- An integer literal without the letter of its type. -/
def withoutIntSuffix (cs : List Char) : List Char :=
  ((Numeral.stripLast? 'i' cs).or (Numeral.stripLast? 'u' cs)).getD cs

/-- A float literal without the letter of its type. -/
def withoutFloatSuffix (cs : List Char) : List Char :=
  ((Numeral.stripLast? 'f' cs).or (Numeral.stripLast? 'h' cs)).getD cs

/-- Reads the magnitude of an integer literal, in hexadecimal behind its mark, as an
unsigned 64-bit word. -/
def intMagnitude? (cs : List Char) : Option Nat :=
  let read :=
    match Numeral.hexadecimal? cs with
    | some digits => Numeral.unsigned? 16 digits
    | none => Numeral.unsigned? 10 cs
  read.filter (· < UInt64.size)

/-- Reads the number of an integer literal. A minus sign in front of it makes a
negative zero of a zero. -/
def ofIntChars? (cs : List Char) : Option Double :=
  match withoutIntSuffix cs with
  | '-' :: body => (intMagnitude? body).map fun n => -Binary.ofNat n
  | body => (intMagnitude? body).map Binary.ofNat

/-- Reads the number of a float literal, in decimal only, which must be finite. -/
def ofFloatChars? (cs : List Char) : Option Double :=
  let body := withoutFloatSuffix cs
  if (Numeral.hexadecimal? body).isSome then none
  else (Binary.ofChars? body).filter Binary.isFinite

/-- The number that was read from a literal, or the failure to read it. -/
def ofText (text : String) (read? : List Char → Option Double) : Except Failure Double :=
  match read? text.toList with
  | some x => .ok x
  | none => .error (.malformedLiteral text)

/-- The number that a literal denotes, in double precision. Negations apply;
brackets and numeric conversions are looked through. -/
def read : Expr → Except Failure Double
  | .intLiteral text => ofText text ofIntChars?
  | .floatLiteral text => ofText text ofFloatChars?
  | .unary .negate target => do return -(← read target)
  | .paren inner => read inner
  | .construct .bool args => .error (.notALiteral (Expr.construct .bool args).text)
  | .construct _ [arg] => read arg
  | e => .error (.notALiteral e.text)
termination_by structural e => e

/-- A number that has no fraction, or the failure that it has one. -/
def requireWhole (x : Double) : Except Failure Double :=
  if x.isWhole then .ok x else .error (.notWhole x)

end Literal

end Camouflage
