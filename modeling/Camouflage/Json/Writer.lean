import Camouflage.Json
import Camouflage.Numeral

/-!
# Writing JSON text

A value is written without blanks, and a character is escaped only where it must be.
Each function puts its text in front of a rest, so that nested values are not copied
at every level.
-/

namespace Camouflage

namespace Json.Writer

/-- A hexadecimal digit in lower case. -/
def hexDigit (n : Nat) : Char := Nat.digitChar (n % 16)

/-- A character of a string. Control characters have short escapes or the code unit. -/
def character (c : Char) (rest : List Char) : List Char :=
  if c = '"' then '\\' :: '"' :: rest
  else if c = '\\' then '\\' :: '\\' :: rest
  else if c = '\n' then '\\' :: 'n' :: rest
  else if c = '\t' then '\\' :: 't' :: rest
  else if c = '\r' then '\\' :: 'r' :: rest
  else if c = '\x08' then '\\' :: 'b' :: rest
  else if c = '\x0c' then '\\' :: 'f' :: rest
  else if c.toNat < 0x20 then
    '\\' :: 'u' :: '0' :: '0' :: hexDigit (c.toNat / 16) :: hexDigit c.toNat :: rest
  else c :: rest

/-- A string between its quotes. -/
def quoted (s : String) (rest : List Char) : List Char :=
  '"' :: s.toList.foldr character ('"' :: rest)

mutual

/-- A value in front of a rest. -/
def value : Json → List Char → List Char
  | null, rest => "null".toList ++ rest
  | bool true, rest => "true".toList ++ rest
  | bool false, rest => "false".toList ++ rest
  | integer n, rest => Numeral.ofInt n ++ rest
  | verbatim text, rest => text.toList ++ rest
  | string s, rest => quoted s rest
  | array [], rest => '[' :: ']' :: rest
  | array (item :: more), rest => '[' :: value item (items more (']' :: rest))
  | object [], rest => '\x7b' :: '\x7d' :: rest
  | object (member :: more), rest => '\x7b' :: pair member (members more ('\x7d' :: rest))
termination_by structural j => j

/-- The items of an array after the first. -/
def items : List Json → List Char → List Char
  | [], rest => rest
  | item :: more, rest => ',' :: value item (items more rest)
termination_by structural js => js

/-- A member of an object. -/
def pair : String × Json → List Char → List Char
  | (name, item), rest => quoted name (':' :: value item rest)
termination_by structural m => m

/-- The members of an object after the first. -/
def members : List (String × Json) → List Char → List Char
  | [], rest => rest
  | member :: more, rest => ',' :: pair member (members more rest)
termination_by structural ms => ms

end

end Json.Writer

namespace Json

/-- The text of a value. -/
def text (j : Json) : String := String.ofList (Writer.value j [])

end Json

end Camouflage
