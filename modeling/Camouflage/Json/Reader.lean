import Camouflage.Json

/-!
# Reading JSON text

A text is read whole: one value with blanks around it and nothing else. A control
character in a string must be escaped.

Half of a surrogate pair can be escaped like any other code unit, but it is no character,
so that a string or a name with one is well formed and yet no text. A caller can only
pass such a value over.
-/

namespace Camouflage

namespace Json.Reader

/-- What a step of the reader makes of a text: a result and the rest of the text. -/
abbrev Step (α : Type) := List Char → Option (α × List Char)

def isBlank (c : Char) : Bool := c == ' ' || c == '\t' || c == '\n' || c == '\r'

def skipBlanks (cs : List Char) : List Char := cs.dropWhile isBlank

/-- Takes a fixed word off the front of a text. -/
def word? : List Char → List Char → Option (List Char)
  | [], rest => some rest
  | c :: cs, d :: rest => if c = d then word? cs rest else none
  | _ :: _, [] => none

/-! ## Numbers -/

/-- One or more digits. -/
def someDigits : Step (List Char) := fun cs =>
  match cs.takeWhile Char.isDigit with
  | [] => none
  | digits => some (digits, cs.dropWhile Char.isDigit)

/-- The digits in front of the point, without leading zeros. -/
def wholePart : Step (List Char)
  | '0' :: rest => some (['0'], rest)
  | cs => someDigits cs

/-- A point and digits, or nothing. -/
def fractionPart : Step (List Char)
  | '.' :: rest => (someDigits rest).map fun (digits, rest) => ('.' :: digits, rest)
  | cs => some ([], cs)

/-- The sign of an exponent, or nothing. -/
def exponentSign : List Char → List Char × List Char
  | '+' :: rest => (['+'], rest)
  | '-' :: rest => (['-'], rest)
  | cs => ([], cs)

/-- A letter and digits, with a sign between them or not, or nothing. -/
def exponentPart : Step (List Char)
  | c :: rest =>
    if c = 'e' ∨ c = 'E' then
      let (sign, rest) := exponentSign rest
      (someDigits rest).map fun (digits, rest) => (c :: sign ++ digits, rest)
    else
      some ([], c :: rest)
  | [] => some ([], [])

/-- A number behind its sign. -/
def number (negative : Bool) : Step Json := fun cs => do
  let (whole, rest) ← wholePart cs
  let (fraction, rest) ← fractionPart rest
  let (exponent, rest) ← exponentPart rest
  let n := Nat.ofDigitChars 10 whole 0
  if fraction.isEmpty ∧ exponent.isEmpty ∧ ¬(negative ∧ n = 0) then
    return (integer (if negative then -n else n), rest)
  else
    let sign := if negative then ['-'] else []
    return (verbatim (String.ofList (sign ++ whole ++ fraction ++ exponent)), rest)

/-! ## Strings -/

def hexDigit? (c : Char) : Option Nat :=
  if c.isDigit then some (c.toNat - '0'.toNat)
  else if 'a' ≤ c ∧ c ≤ 'f' then some (c.toNat - 'a'.toNat + 10)
  else if 'A' ≤ c ∧ c ≤ 'F' then some (c.toNat - 'A'.toNat + 10)
  else none

/-- The code unit of four hexadecimal digits. -/
def codeUnit? (a b c d : Char) : Option Nat := do
  let high := 16 * (← hexDigit? a) + (← hexDigit? b)
  let low := 16 * (← hexDigit? c) + (← hexDigit? d)
  return 256 * high + low

/-- The character that a letter behind a backslash stands for. -/
def escaped? : Char → Option Char
  | '"' => some '"'
  | '\\' => some '\\'
  | '/' => some '/'
  | 'b' => some '\x08'
  | 'f' => some '\x0c'
  | 'n' => some '\n'
  | 'r' => some '\r'
  | 't' => some '\t'
  | _ => none

/-- A code unit behind the code points before it, which are in reverse: the second half of
a surrogate pair makes one code point with the first. -/
def addUnit (unit : Nat) : List Nat → List Nat
  | [] => [unit]
  | high :: before =>
    if (0xD800 ≤ high ∧ high < 0xDC00) ∧ 0xDC00 ≤ unit ∧ unit < 0xE000 then
      (0x10000 + (high - 0xD800) * 0x400 + (unit - 0xDC00)) :: before
    else
      unit :: high :: before

/-- The code points up to the closing quote, behind those already read in reverse. -/
def codePoints (read : List Nat) : Step (List Nat)
  | [] => none
  | '"' :: rest => some (read.reverse, rest)
  | '\\' :: 'u' :: a :: b :: c :: d :: rest => do
    let unit ← codeUnit? a b c d
    codePoints (addUnit unit read) rest
  | '\\' :: letter :: rest => do
    let c ← escaped? letter
    codePoints (c.toNat :: read) rest
  | c :: rest =>
    if c = '\\' ∨ c.toNat < 0x20 then none else codePoints (c.toNat :: read) rest

/-- The text of code points that are characters. -/
def textOf? (codes : List Nat) : Option String :=
  if codes.all fun n => n.isValidChar then some (String.ofList (codes.map Char.ofNat)) else none

/-- A string behind its opening quote, if it is a text. -/
def stringBody : Step (Option String) := fun cs =>
  (codePoints [] cs).map fun (codes, rest) => (textOf? codes, rest)

/-! ## Values -/

/-- A value that can only be passed over: what stands in front of the rest of a text. -/
def textBefore (rest cs : List Char) : Json :=
  verbatim (String.ofList (cs.take (cs.length - rest.length)))

mutual

/-- One value, with blanks in front of it. -/
def value : Nat → Step Json
  | 0, _ => none
  | fuel + 1, cs =>
    let cs := skipBlanks cs
    match cs with
    | '"' :: rest => do
      let (s, rest) ← stringBody rest
      match s with
      | some s => return (string s, rest)
      | none => return (textBefore rest cs, rest)
    | '[' :: rest => (arrayBody fuel rest).map fun (js, rest) => (array js, rest)
    | '\x7b' :: rest => do
      let (ms, rest) ← objectBody fuel rest
      match ms with
      | some ms => return (object ms, rest)
      | none => return (textBefore rest cs, rest)
    | '-' :: rest => number true rest
    | 'n' :: rest => (word? "ull".toList rest).map (null, ·)
    | 't' :: rest => (word? "rue".toList rest).map (bool true, ·)
    | 'f' :: rest => (word? "alse".toList rest).map (bool false, ·)
    | rest => number false rest
termination_by structural fuel => fuel

/-- The items of an array behind its opening bracket. -/
def arrayBody : Nat → Step (List Json)
  | 0, _ => none
  | fuel + 1, cs =>
    match skipBlanks cs with
    | ']' :: rest => some ([], rest)
    | rest => items [] fuel rest
termination_by structural fuel => fuel

/-- The items of an array from the next one on, behind those already read in
reverse. -/
def items (read : List Json) : Nat → Step (List Json)
  | 0, _ => none
  | fuel + 1, cs => do
    let (item, rest) ← value fuel cs
    match skipBlanks rest with
    | ',' :: rest => items (item :: read) fuel rest
    | ']' :: rest => some ((item :: read).reverse, rest)
    | _ => none
termination_by structural fuel => fuel

/-- The members of an object behind its opening brace, unless one of their names is no
text. -/
def objectBody : Nat → Step (Option (List (String × Json)))
  | 0, _ => none
  | fuel + 1, cs =>
    match skipBlanks cs with
    | '\x7d' :: rest => some (some [], rest)
    | rest => members (some []) fuel rest
termination_by structural fuel => fuel

/-- The members of an object from the next one on, behind those already read in
reverse. -/
def members (read : Option (List (String × Json))) :
    Nat → Step (Option (List (String × Json)))
  | 0, _ => none
  | fuel + 1, cs => do
    let rest ← word? ['"'] (skipBlanks cs)
    let (name, rest) ← stringBody rest
    let rest ← word? [':'] (skipBlanks rest)
    let (item, rest) ← value fuel rest
    let read := do return (← name, item) :: (← read)
    match skipBlanks rest with
    | ',' :: rest => members read fuel rest
    | '\x7d' :: rest => some (read.map List.reverse, rest)
    | _ => none
termination_by structural fuel => fuel

end

end Json.Reader

namespace Json

/-- Reads a text that is one JSON value, nested to any depth. No character takes more than
three steps (a bracket takes that many: a value, its body, its first item), so that three
times the length of the text is enough fuel. -/
def parse? (text : String) : Option Json :=
  let cs := text.toList
  match Reader.value (3 * cs.length + 3) cs with
  | some (j, rest) => if (Reader.skipBlanks rest).isEmpty then some j else none
  | none => none

end Json

end Camouflage
