import Camouflage.Expr.Text

/-!
# A reader of printed expressions

`Expr.read?` reads the text of an expression by recursive descent: a sign, a bracket or a word
starts it, and a word is a truth value, a number, a name with lookups behind it, or what stands in
front of arguments. Brackets become nodes.
-/

namespace Camouflage

/-! ## Words -/

namespace Text

/-- A character of a name, of a number, or of the name of a type. -/
def isWordChar (c : Char) : Bool := c.isAlphanum || c == '_' || c == '\x7b' || c == '\x7d'

/-- One or more characters of a word. -/
def IsWord (cs : List Char) : Prop := cs ≠ [] ∧ cs.all isWordChar = true

instance : DecidablePred IsWord := fun _ => instDecidableAnd

/-- A text does not go on with a character of a word. -/
def NoWord (cs : List Char) : Prop := ∀ c ∈ cs.head?, isWordChar c = false

section

variable {word : List Char} (hword : IsWord word)

include hword

theorem takeWhile_word {rest : List Char} (hrest : NoWord rest) :
    (word ++ rest).takeWhile isWordChar = word := by
  rw [List.takeWhile_append_of_pos (List.all_eq_true.1 hword.2)]
  cases rest with
  | nil => simp
  | cons c rest => simp [hrest c rfl]

theorem dropWhile_word {rest : List Char} (hrest : NoWord rest) :
    (word ++ rest).dropWhile isWordChar = rest := by
  rw [List.dropWhile_append_of_pos (List.all_eq_true.1 hword.2)]
  cases rest with
  | nil => simp
  | cons c rest => simp [hrest c rfl]

/-- A text that starts with a word starts with no other character. -/
theorem word_append_ne {c : Char} (hc : isWordChar c = false) (rest cs : List Char) :
    word ++ rest ≠ c :: cs := by
  obtain ⟨first, front, rfl⟩ := List.exists_cons_of_ne_nil hword.1
  intro h
  obtain rfl := (List.cons.inj h).1
  rw [List.all_eq_true.1 hword.2 first List.mem_cons_self] at hc
  cases hc

end

end Text

open Text

/-! ## Signs -/

/-- The operator of a sign. -/
def BinaryOp.ofSign? : Char → Option BinaryOp
  | '+' => some .add
  | '-' => some .subtract
  | '*' => some .multiply
  | '/' => some .divide
  | '%' => some .modulo
  | _ => none

theorem BinaryOp.ofSign?_sign (op : BinaryOp) : ofSign? op.sign = some op := by
  cases op with
  | _ => rfl

namespace Expr

/-! ## Reading -/

/-- A word in front of a bracket, applied to what stands in the bracket. -/
def applied (word : List Char) (args : List Expr) : Expr :=
  match Scalar.all.find? fun ty => ty.text.toList == word with
  | some ty => construct ty args
  | none => call (String.ofList word) args

/-- The number that starts with a word, and the text behind it. -/
def number (word : List Char) : List Char → Expr × List Char
  | '.' :: cs =>
    (floatLiteral (String.ofList (word ++ '.' :: cs.takeWhile isWordChar)), cs.dropWhile isWordChar)
  | cs =>
    if word.getLast? = some 'f' then (floatLiteral (String.ofList word), cs)
    else (intLiteral (String.ofList word), cs)

mutual

/-- Reads an expression, and gives the text behind it. The fuel bounds the depth of the calls. -/
def read? : Nat → List Char → Option (Expr × List Char)
  | 0, _ => none
  | fuel + 1, '-' :: cs => do
    let (target, cs) ← read? fuel cs
    return (neg target, cs)
  | fuel + 1, '(' :: cs => do
    let (first, cs) ← read? fuel cs
    match cs with
    | ')' :: cs => return (paren first, cs)
    | ' ' :: sign :: ' ' :: cs =>
      let op ← BinaryOp.ofSign? sign
      match ← read? fuel cs with
      | (second, ')' :: cs) => return (binary op first second, cs)
      | _ => none
    | _ => none
  | fuel + 1, cs =>
    let word := cs.takeWhile isWordChar
    match cs.dropWhile isWordChar with
    | '(' :: cs => do
      let (args, cs) ← readArgs? fuel cs
      return (applied word args, cs)
    | cs =>
      if word = "true".toList then some (boolLiteral true, cs)
      else if word = "false".toList then some (boolLiteral false, cs)
      else if word.head?.any Char.isDigit then some (number word cs)
      else readPath? fuel (identifier (String.ofList word)) cs

/-- Reads the arguments up to the closing bracket. -/
def readArgs? : Nat → List Char → Option (List Expr × List Char)
  | 0, _ => none
  | _ + 1, ')' :: cs => some ([], cs)
  | fuel + 1, cs => do
    let (e, cs) ← read? fuel cs
    let (es, cs) ← readTail? fuel cs
    return (e :: es, cs)

/-- Reads the arguments behind the first one. -/
def readTail? : Nat → List Char → Option (List Expr × List Char)
  | 0, _ => none
  | _ + 1, ')' :: cs => some ([], cs)
  | fuel + 1, ',' :: ' ' :: cs => do
    let (e, cs) ← read? fuel cs
    let (es, cs) ← readTail? fuel cs
    return (e :: es, cs)
  | _ + 1, _ => none

/-- Reads the lookups behind a reference. -/
def readPath? : Nat → Expr → List Char → Option (Expr × List Char)
  | 0, _, _ => none
  | fuel + 1, e, '.' :: cs =>
    readPath? fuel (member e (String.ofList (cs.takeWhile isWordChar))) (cs.dropWhile isWordChar)
  | fuel + 1, e, '[' :: cs => do
    match ← read? fuel cs with
    | (position, ']' :: cs) => readPath? fuel (index e position) cs
    | _ => none
  | _ + 1, e, cs => some (e, cs)

end

/-! ## Steps of the reader -/

variable {fuel : Nat} {cs rest : List Char} {e target lhs rhs : Expr} {args : List Expr}

theorem read?_negate (h : read? fuel cs = some (target, rest)) :
    read? (fuel + 1) ('-' :: cs) = some (neg target, rest) := by
  rw [read?, h]
  rfl

theorem read?_paren (h : read? fuel cs = some (e, ')' :: rest)) :
    read? (fuel + 1) ('(' :: cs) = some (paren e, rest) := by
  rw [read?, h]
  rfl

theorem read?_binary {op : BinaryOp} {cs' : List Char}
    (hl : read? fuel cs = some (lhs, ' ' :: op.sign :: ' ' :: cs'))
    (hr : read? fuel cs' = some (rhs, ')' :: rest)) :
    read? (fuel + 1) ('(' :: cs) = some (binary op lhs rhs, rest) := by
  rw [read?, hl]
  simp only [Option.bind_eq_bind, Option.bind_some, BinaryOp.ofSign?_sign, hr]
  rfl

section

variable {word : List Char} (hword : IsWord word)

include hword

theorem read?_applied (h : readArgs? fuel cs = some (args, rest)) :
    read? (fuel + 1) (word ++ '(' :: cs) = some (applied word args, rest) := by
  have hcs : NoWord ('(' :: cs) := by simp [NoWord, isWordChar]
  rw [read?, takeWhile_word hword hcs, dropWhile_word hword hcs]
  · simp only [h]
    rfl
  · exact word_append_ne hword (by decide) _
  · exact word_append_ne hword (by decide) _

theorem read?_alone (hrest : NoWord rest) (hopen : rest.head? ≠ some '(') :
    read? (fuel + 1) (word ++ rest) =
      if word = "true".toList then some (boolLiteral true, rest)
      else if word = "false".toList then some (boolLiteral false, rest)
      else if word.head?.any Char.isDigit then some (number word rest)
      else readPath? fuel (identifier (String.ofList word)) rest := by
  rw [read?, takeWhile_word hword hrest, dropWhile_word hword hrest]
  · split
    · exact absurd rfl hopen
    · rfl
  · exact word_append_ne hword (by decide) _
  · exact word_append_ne hword (by decide) _

end

theorem readArgs?_cons {es : List Expr} (hfirst : ∀ cs', cs ≠ ')' :: cs') {cs' : List Char}
    (h : read? fuel cs = some (e, cs')) (htail : readTail? fuel cs' = some (es, rest)) :
    readArgs? (fuel + 1) cs = some (e :: es, rest) := by
  rw [readArgs?, h]
  · simp only [Option.bind_eq_bind, Option.bind_some, htail]
    rfl
  · exact hfirst

theorem readTail?_cons {es : List Expr} {cs' : List Char}
    (h : read? fuel cs = some (e, cs')) (htail : readTail? fuel cs' = some (es, rest)) :
    readTail? (fuel + 1) (',' :: ' ' :: cs) = some (e :: es, rest) := by
  rw [readTail?, h]
  simp only [Option.bind_eq_bind, Option.bind_some, htail]
  rfl

theorem readPath?_member {name : List Char} (hname : IsWord name) (hrest : NoWord rest) :
    readPath? (fuel + 1) e ('.' :: name ++ rest) =
      readPath? fuel (member e (String.ofList name)) rest := by
  rw [List.cons_append, readPath?, takeWhile_word hname hrest, dropWhile_word hname hrest]

theorem readPath?_index {position : Expr} (h : read? fuel cs = some (position, ']' :: rest)) :
    readPath? (fuel + 1) e ('[' :: cs) = readPath? fuel (index e position) rest := by
  rw [readPath?, h]
  rfl

end Expr

end Camouflage
