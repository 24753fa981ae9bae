import Camouflage.Proofs.Brackets
import Camouflage.Proofs.TextReader

/-!
# Printed text determines the tree

Of a tree whose names and numbers are spelled as a shader spells them (`Expr.Legible`), the reader
gives the tree itself, with the brackets that the text shows (`Expr.read?_chars`). So two such
trees of one text differ in nothing but brackets, and are worth the same
(`Expr.same_of_text_eq`).
-/

namespace Camouflage

/-! ## Spelling -/

namespace Text

/-- One or more decimal digits. -/
def IsDigits (cs : List Char) : Prop := cs ≠ [] ∧ cs.all Char.isDigit = true

/-- A letter or underscore, and letters, digits and underscores behind it. -/
def IsName : List Char → Prop
  | [] => False
  | c :: cs => (c.isAlpha || c == '_') = true ∧ (cs.all fun d => d.isAlphanum || d == '_') = true

/-- Digits and perhaps the letter of an integer type. -/
def IsInteger (cs : List Char) : Prop :=
  ∃ digits, IsDigits digits ∧ ∃ suffix ∈ [[], ['i'], ['u']], cs = digits ++ suffix

/-- Digits and the letter of the float type, or digits on both sides of a point and perhaps that
letter. -/
def IsFloat (cs : List Char) : Prop :=
  ∃ digits, IsDigits digits ∧ (cs = digits ++ ['f'] ∨ ∃ fraction, IsDigits fraction ∧
    ∃ suffix ∈ [[], ['f']], cs = digits ++ '.' :: (fraction ++ suffix))

theorem isWordChar_of_isDigit {c : Char} (h : c.isDigit = true) : isWordChar c = true := by
  simp [isWordChar, Char.isAlphanum, h]

theorem isWordChar_of_isAlphanum {c : Char} (h : (c.isAlphanum || c == '_') = true) :
    isWordChar c = true := by
  rw [isWordChar, h]
  rfl

/-- No letter and no underscore is a digit: their codes are larger. -/
theorem isDigit_eq_false {c : Char} (h : (c.isAlpha || c == '_') = true) : c.isDigit = false := by
  have hcode : '9'.val < c.val := by
    rcases Bool.or_eq_true _ _ ▸ h with hletter | hunderscore
    · rcases Bool.or_eq_true _ _ ▸ hletter with hupper | hlower
      · exact UInt32.lt_of_lt_of_le (by decide) (of_decide_eq_true hupper).1
      · exact UInt32.lt_of_lt_of_le (by decide) (of_decide_eq_true (Bool.and_eq_true_iff.1 hlower).1)
    · obtain rfl := eq_of_beq hunderscore
      decide
  show (decide (c.val ≥ '0'.val) && decide (c.val ≤ '9'.val)) = false
  rw [decide_eq_false (UInt32.not_le.2 hcode), Bool.and_false]

section

variable {cs digits suffix : List Char}

theorem IsName.isWord (h : IsName cs) : IsWord cs := by
  cases cs with
  | nil => cases h
  | cons first cs =>
    obtain ⟨hfirst, hothers⟩ := h
    have hfirst : (first.isAlphanum || first == '_') = true := by
      rw [Char.isAlphanum, Bool.or_right_comm, hfirst, Bool.true_or]
    refine ⟨List.cons_ne_nil _ _, ?_⟩
    rw [List.all_cons, isWordChar_of_isAlphanum hfirst, Bool.true_and, List.all_eq_true]
    exact fun c hc => isWordChar_of_isAlphanum (List.all_eq_true.1 hothers c hc)

/-- A name does not start with a digit. -/
theorem IsName.head? (h : IsName cs) : cs.head?.any Char.isDigit = false := by
  cases cs with
  | nil => rfl
  | cons first cs => exact isDigit_eq_false h.1

theorem IsDigits.head?_append (h : IsDigits digits) (cs : List Char) :
    (digits ++ cs).head?.any Char.isDigit = true := by
  cases digits with
  | nil => exact absurd rfl h.1
  | cons first digits => exact List.all_eq_true.1 h.2 first List.mem_cons_self

theorem IsDigits.head? (h : IsDigits digits) : digits.head?.any Char.isDigit = true := by
  simpa using h.head?_append []

theorem IsDigits.isWord (h : IsDigits digits) : IsWord digits :=
  ⟨h.1, List.all_eq_true.2 fun c hc => isWordChar_of_isDigit (List.all_eq_true.1 h.2 c hc)⟩

theorem IsDigits.isWord_append (h : IsDigits digits) (hsuffix : suffix.all isWordChar = true) :
    IsWord (digits ++ suffix) := by
  refine ⟨List.append_ne_nil_of_left_ne_nil h.1 suffix, ?_⟩
  rw [List.all_append, h.isWord.2, hsuffix]
  rfl

end

end Text

open Text

namespace Expr

mutual

/-- Whether names and numbers are spelled as a shader spells them, and lookups start from a
name. A name is no truth value, and what is called is no type. -/
def Legible : Expr → Prop
  | boolLiteral _ => True
  | intLiteral text => IsInteger text.toList
  | floatLiteral text => IsFloat text.toList
  | identifier name => IsName name.toList ∧ name ≠ "true" ∧ name ≠ "false"
  | member receiver name => receiver.isReference = true ∧ receiver.Legible ∧ IsName name.toList
  | index target position => target.isReference = true ∧ target.Legible ∧ position.Legible
  | unary _ target => target.Legible
  | binary _ lhs rhs => lhs.Legible ∧ rhs.Legible
  | call callee args =>
    IsName callee.toList ∧ (∀ ty : Scalar, ty.keyword? ≠ some callee) ∧ LegibleList args
  | construct _ args => LegibleList args
  | paren inner => inner.Legible
termination_by structural e => e

def LegibleList : List Expr → Prop
  | [] => True
  | e :: es => e.Legible ∧ LegibleList es
termination_by structural es => es

end

variable {fuel : Nat} {cs rest : List Char} {e : Expr}

/-! ## Words of a legible tree -/

/-- What may stand behind an expression: nothing, or one of the characters that end it. -/
def Ends (cs : List Char) : Prop := ∀ c ∈ cs.head?, c = ')' ∨ c = ']' ∨ c = ',' ∨ c = ' '

theorem ends_close (cs : List Char) : Ends (')' :: cs) := by simp [Ends]

/-- Behind an argument stands a comma or the closing bracket. -/
theorem ends_charsTail (es : List Expr) (rest : List Char) : Ends (charsTail es ++ ')' :: rest) := by
  cases es with
  | nil => exact ends_close rest
  | cons e es => simp [charsTail, Ends]

theorem Ends.noWord (h : Ends cs) : NoWord cs := by
  intro c hc
  rcases h c hc with rfl | rfl | rfl | rfl
  · rfl
  · rfl
  · rfl
  · rfl

theorem Ends.ne {c : Char} (h : Ends cs) (hc : c = '(' ∨ c = '.' ∨ c = '[') : cs.head? ≠ some c := by
  intro hhead
  rcases hc with rfl | rfl | rfl
  · simpa using h _ hhead
  · simpa using h _ hhead
  · simpa using h _ hhead

theorem readPath?_of_ends (h : Ends rest) : readPath? (fuel + 1) e rest = some (e, rest) := by
  rw [readPath?]
  · rintro cs rfl
    exact h.ne (.inr (.inl rfl)) rfl
  · rintro cs rfl
    exact h.ne (.inr (.inr rfl)) rfl

theorem number_of_ends (h : Ends rest) (word : List Char) :
    number word rest =
      if word.getLast? = some 'f' then (floatLiteral (String.ofList word), rest)
      else (intLiteral (String.ofList word), rest) := by
  rw [number]
  rintro cs rfl
  exact h.ne (.inr (.inl rfl)) rfl

/-- A word that starts with a digit is a number, or the first part of one. -/
theorem read?_number {word : List Char} (hdigit : word.head?.any Char.isDigit = true)
    (hword : IsWord word) (hrest : NoWord rest) (hopen : rest.head? ≠ some '(') :
    read? (fuel + 1) (word ++ rest) = some (number word rest) := by
  rw [read?_alone hword hrest hopen, if_neg, if_neg, if_pos hdigit]
  · rintro rfl
    cases hdigit
  · rintro rfl
    cases hdigit

theorem read?_integer {word : List Char} (h : IsInteger word) (hrest : Ends rest) :
    read? (fuel + 1) (word ++ rest) = some (intLiteral (String.ofList word), rest) := by
  obtain ⟨digits, hdigits, suffix, hmem, rfl⟩ := h
  have hsuffix : suffix.all isWordChar = true ∧ 'f' ∉ suffix := by
    revert suffix
    decide
  have hlast : (digits ++ suffix).getLast? ≠ some 'f' := by
    intro hlast
    rcases List.mem_append.1 (List.mem_of_getLast? hlast) with hdigit | hletter
    · exact absurd (List.all_eq_true.1 hdigits.2 _ hdigit) (by decide)
    · exact hsuffix.2 hletter
  rw [read?_number (hdigits.head?_append suffix) (hdigits.isWord_append hsuffix.1) hrest.noWord
      (hrest.ne (.inl rfl)),
    number_of_ends hrest, if_neg hlast]

theorem read?_float {word : List Char} (h : IsFloat word) (hrest : Ends rest) :
    read? (fuel + 1) (word ++ rest) = some (floatLiteral (String.ofList word), rest) := by
  obtain ⟨digits, hdigits, rfl | ⟨fraction, hfraction, suffix, hmem, rfl⟩⟩ := h
  · rw [read?_number (hdigits.head?_append ['f']) (hdigits.isWord_append rfl) hrest.noWord
        (hrest.ne (.inl rfl)),
      number_of_ends hrest, if_pos List.getLast?_concat]
  · have hsuffix : suffix.all isWordChar = true := by
      revert suffix
      decide
    have hpoint : NoWord ('.' :: (fraction ++ suffix ++ rest)) := by simp [NoWord, isWordChar]
    have htail := hfraction.isWord_append hsuffix
    rw [List.append_assoc, List.cons_append,
      read?_number hdigits.head? hdigits.isWord hpoint (by simp), number,
      takeWhile_word htail hrest.noWord, dropWhile_word htail hrest.noWord]

theorem isWord_text (ty : Scalar) : IsWord ty.text.toList := by
  cases ty with
  | _ => decide

theorem applied_text (ty : Scalar) (args : List Expr) :
    applied ty.text.toList args = construct ty args := by
  cases ty with
  | _ => rfl

/-- A name that is no keyword is the text of no type: those of the types without a keyword start
with a brace. -/
theorem applied_of_isName {callee : String} (hname : IsName callee.toList)
    (hkeyword : ∀ ty : Scalar, ty.keyword? ≠ some callee) (args : List Expr) :
    applied callee.toList args = call callee args := by
  have hnone : Scalar.all.find? (fun ty => ty.text.toList == callee.toList) = none := by
    refine List.find?_eq_none.2 fun ty _ htext => ?_
    have htext : ty.text = callee := String.toList_inj.1 (eq_of_beq htext)
    subst htext
    cases ty with
    | bool => exact hkeyword .bool rfl
    | i32 => exact hkeyword .i32 rfl
    | u32 => exact hkeyword .u32 rfl
    | f32 => exact hkeyword .f32 rfl
    | abstractInt => exact absurd hname.1 (by decide)
    | abstractFloat => exact absurd hname.1 (by decide)
  rw [applied, hnone, String.ofList_toList]

/-! ## A text in front of another -/

section

variable (rest : List Char)

theorem chars_member_append (receiver : Expr) (name : String) : (member receiver name).chars ++ rest =
    receiver.chars ++ '.' :: (name.toList ++ rest) := by
  simp [chars]

theorem chars_index_append (target position : Expr) : (index target position).chars ++ rest =
    target.chars ++ '[' :: (position.chars ++ ']' :: rest) := by
  simp [chars]

theorem chars_binary_append (op : BinaryOp) (lhs rhs : Expr) : (binary op lhs rhs).chars ++ rest =
    '(' :: (lhs.chars ++ ' ' :: op.sign :: ' ' :: (rhs.chars ++ ')' :: rest)) := by
  simp [chars]

theorem chars_call_append (callee : String) (args : List Expr) : (call callee args).chars ++ rest =
    callee.toList ++ '(' :: (charsList args ++ ')' :: rest) := by
  simp [chars]

theorem chars_construct_append (ty : Scalar) (args : List Expr) : (construct ty args).chars ++ rest =
    ty.text.toList ++ '(' :: (charsList args ++ ')' :: rest) := by
  simp [chars]

theorem chars_paren_append (inner : Expr) : (paren inner).chars ++ rest =
    '(' :: (inner.chars ++ ')' :: rest) := by
  simp [chars]

end

/-! ## Reading back what was printed -/

/-- A legible tree does not start with a closing bracket: an argument is told from the end of its
list by its first character. -/
theorem chars_append_ne : ∀ {e : Expr}, e.Legible → ∀ rest cs : List Char,
    e.chars ++ rest ≠ ')' :: cs
  | boolLiteral true, _, rest, cs => word_append_ne (by decide) (by decide) rest cs
  | boolLiteral false, _, rest, cs => word_append_ne (by decide) (by decide) rest cs
  | intLiteral text, h, rest, cs => by
    obtain ⟨digits, hdigits, suffix, -, htext⟩ : IsInteger text.toList := h
    rw [chars, htext, List.append_assoc]
    exact word_append_ne hdigits.isWord (by decide) _ _
  | floatLiteral text, h, rest, cs => by
    obtain ⟨digits, hdigits, hsuffix⟩ : IsFloat text.toList := h
    obtain ⟨suffix, htext⟩ : ∃ suffix, text.toList = digits ++ suffix := by
      rcases hsuffix with htext | ⟨fraction, -, suffix, -, htext⟩
      · exact ⟨_, htext⟩
      · exact ⟨_, htext⟩
    rw [chars, htext, List.append_assoc]
    exact word_append_ne hdigits.isWord (by decide) _ _
  | identifier name, h, rest, cs => word_append_ne h.1.isWord (by decide) rest cs
  | member receiver name, h, rest, cs => by
    rw [chars_member_append]
    exact chars_append_ne h.2.1 _ _
  | index target position, h, rest, cs => by
    rw [chars_index_append]
    exact chars_append_ne h.2.1 _ _
  | unary .negate target, _, rest, cs => by
    rw [chars]
    split
    · simp
    · simp
  | binary op lhs rhs, _, rest, cs => by simp [chars]
  | call callee args, h, rest, cs => by
    rw [chars_call_append]
    exact word_append_ne h.1.isWord (by decide) _ _
  | construct ty args, _, rest, cs => by
    rw [chars_construct_append]
    exact word_append_ne (isWord_text ty) (by decide) _ _
  | paren inner, _, rest, cs => by simp [chars]

mutual

-- The induction is on the tree. The fuel exceeds the length of its text, and every call of the
-- reader has taken a character before.
/-- In front of a text that ends it, the text of a legible tree reads back as the tree with the
brackets that it shows. -/
theorem read?_chars : ∀ {e : Expr}, e.Legible → ∀ (fuel : Nat) (rest : List Char),
    e.chars.length < fuel → Ends rest → read? fuel (e.chars ++ rest) = some (e.spaced, rest)
  | boolLiteral value, _, fuel + 1, rest, _, hrest => by
    cases value with
    | true => exact read?_alone (by decide) hrest.noWord (hrest.ne (.inl rfl))
    | false => exact read?_alone (by decide) hrest.noWord (hrest.ne (.inl rfl))
  | intLiteral text, h, fuel + 1, rest, _, hrest => by
    rw [chars, read?_integer h hrest, String.ofList_toList, spaced]
  | floatLiteral text, h, fuel + 1, rest, _, hrest => by
    rw [chars, read?_float h hrest, String.ofList_toList, spaced]
  | identifier _, h, fuel, rest, hfuel, hrest => read?_reference_ends rfl h fuel rest hfuel hrest
  | member .., h, fuel, rest, hfuel, hrest => read?_reference_ends rfl h fuel rest hfuel hrest
  | index .., h, fuel, rest, hfuel, hrest => read?_reference_ends rfl h fuel rest hfuel hrest
  | unary .negate target, h, fuel + 1, rest, hfuel, hrest => by
    have htarget : target.Legible := h
    rw [chars, spaced]
    rw [chars] at hfuel
    split
    · rename_i hunary
      rw [if_pos hunary] at hfuel
      simp only [List.length_cons, List.length_append] at hfuel
      obtain ⟨fuel, rfl⟩ : ∃ fuel', fuel = fuel' + 1 := ⟨fuel - 1, by omega⟩
      have hread := read?_chars htarget fuel (')' :: rest) (by omega) (ends_close rest)
      refine read?_negate (read?_paren ?_)
      simpa using hread
    · rename_i hother
      rw [if_neg hother] at hfuel
      simp only [List.length_cons] at hfuel
      exact read?_negate (read?_chars htarget fuel rest (by omega) hrest)
  | binary op lhs rhs, h, fuel + 1, rest, hfuel, hrest => by
    obtain ⟨hl, hr⟩ : lhs.Legible ∧ rhs.Legible := h
    rw [chars] at hfuel
    simp only [List.length_cons, List.length_append] at hfuel
    have hlhs := read?_chars hl fuel (' ' :: op.sign :: ' ' :: (rhs.chars ++ ')' :: rest))
      (by omega) (by simp [Ends])
    have hrhs := read?_chars hr fuel (')' :: rest) (by omega) (ends_close rest)
    rw [chars_binary_append, spaced]
    exact read?_binary hlhs hrhs
  | call callee args, h, fuel + 1, rest, hfuel, hrest => by
    obtain ⟨hname, hkeyword, hargs⟩ : IsName callee.toList ∧
      (∀ ty : Scalar, ty.keyword? ≠ some callee) ∧ LegibleList args := h
    have hlength := List.length_pos_iff.2 hname.isWord.1
    rw [chars] at hfuel
    simp only [List.length_cons, List.length_append] at hfuel
    have hread := readArgs?_chars hargs fuel rest (by omega)
    rw [chars_call_append, read?_applied hname.isWord hread, applied_of_isName hname hkeyword, spaced]
  | construct ty args, h, fuel + 1, rest, hfuel, hrest => by
    have hargs : LegibleList args := h
    have hlength := List.length_pos_iff.2 (isWord_text ty).1
    rw [chars] at hfuel
    simp only [List.length_cons, List.length_append] at hfuel
    have hread := readArgs?_chars hargs fuel rest (by omega)
    rw [chars_construct_append, read?_applied (isWord_text ty) hread, applied_text, spaced]
  | paren inner, h, fuel + 1, rest, hfuel, hrest => by
    have hinner : inner.Legible := h
    rw [chars] at hfuel
    simp only [List.length_cons, List.length_append] at hfuel
    have hread := read?_chars hinner fuel (')' :: rest) (by omega) (ends_close rest)
    rw [chars_paren_append, spaced]
    exact read?_paren hread

/-- In front of any text that does not go on with its last word, the text of a reference is read
as far as it goes, and lookups may follow. -/
theorem read?_reference : ∀ {e : Expr}, e.isReference = true → e.Legible →
    ∀ (fuel : Nat) (rest : List Char), e.chars.length < fuel → NoWord rest → rest.head? ≠ some '(' →
    ∃ left, fuel ≤ left + e.chars.length ∧
      read? fuel (e.chars ++ rest) = readPath? left e.spaced rest
  | identifier name, _, h, fuel + 1, rest, hfuel, hrest, hopen => by
    obtain ⟨hname, htrue, hfalse⟩ : IsName name.toList ∧ name ≠ "true" ∧ name ≠ "false" := h
    have hlength := List.length_pos_iff.2 hname.isWord.1
    refine ⟨fuel, by rw [chars]; omega, ?_⟩
    rw [chars, read?_alone hname.isWord hrest hopen, if_neg, if_neg, hname.head?,
      String.ofList_toList]
    · rfl
    · exact fun h => hfalse (String.toList_inj.1 h)
    · exact fun h => htrue (String.toList_inj.1 h)
  | member receiver name, _, h, fuel, rest, hfuel, hrest, hopen => by
    obtain ⟨href, hreceiver, hname⟩ :
      receiver.isReference = true ∧ receiver.Legible ∧ IsName name.toList := h
    rw [chars] at hfuel ⊢
    simp only [List.length_cons, List.length_append] at hfuel ⊢
    obtain ⟨left, hleft, hread⟩ := read?_reference href hreceiver fuel
      ('.' :: name.toList ++ rest) (by omega) (by simp [NoWord, isWordChar]) (by simp)
    obtain ⟨left, rfl⟩ : ∃ left', left = left' + 1 := ⟨left - 1, by omega⟩
    refine ⟨left, by omega, ?_⟩
    rw [List.append_assoc, hread, readPath?_member hname.isWord hrest,
      String.ofList_toList, spaced]
  | index target position, _, h, fuel, rest, hfuel, hrest, hopen => by
    obtain ⟨href, htarget, hposition⟩ :
      target.isReference = true ∧ target.Legible ∧ position.Legible := h
    rw [chars] at hfuel
    simp only [List.length_cons, List.length_append, List.length_nil] at hfuel
    obtain ⟨left, hleft, hread⟩ := read?_reference href htarget fuel
      ('[' :: (position.chars ++ ']' :: rest)) (by omega) (by simp [NoWord, isWordChar]) (by simp)
    obtain ⟨left, rfl⟩ : ∃ left', left = left' + 1 := ⟨left - 1, by omega⟩
    have hinner := read?_chars hposition left (']' :: rest) (by omega) (by simp [Ends])
    refine ⟨left, ?_, ?_⟩
    · rw [chars]
      simp only [List.length_cons, List.length_append, List.length_nil]
      omega
    · rw [chars_index_append, hread, readPath?_index hinner, spaced]

theorem read?_reference_ends : ∀ {e : Expr}, e.isReference = true → e.Legible → ∀ (fuel : Nat)
    (rest : List Char), e.chars.length < fuel → Ends rest →
    read? fuel (e.chars ++ rest) = some (e.spaced, rest)
  | e, href, h, fuel, rest, hfuel, hrest => by
    obtain ⟨left, hleft, hread⟩ :=
      read?_reference href h fuel rest hfuel hrest.noWord (hrest.ne (.inl rfl))
    obtain ⟨left, rfl⟩ : ∃ left', left = left' + 1 := ⟨left - 1, by omega⟩
    rw [hread, readPath?_of_ends hrest]

theorem readArgs?_chars : ∀ {es : List Expr}, LegibleList es → ∀ (fuel : Nat) (rest : List Char),
    (charsList es).length + 1 < fuel →
    readArgs? fuel (charsList es ++ ')' :: rest) = some (spacedList es, rest)
  | [], _, fuel + 1, rest, _ => rfl
  | e :: es, h, fuel + 1, rest, hfuel => by
    obtain ⟨he, hes⟩ : e.Legible ∧ LegibleList es := h
    rw [charsList] at hfuel ⊢
    simp only [List.length_append] at hfuel
    rw [List.append_assoc, spacedList]
    have hfirst := read?_chars he fuel _ (by omega) (ends_charsTail es rest)
    have htail := readTail?_chars hes fuel rest (by omega)
    exact readArgs?_cons (chars_append_ne he _) hfirst htail

theorem readTail?_chars : ∀ {es : List Expr}, LegibleList es → ∀ (fuel : Nat) (rest : List Char),
    (charsTail es).length < fuel →
    readTail? fuel (charsTail es ++ ')' :: rest) = some (spacedList es, rest)
  | [], _, fuel + 1, rest, _ => rfl
  | e :: es, h, fuel + 1, rest, hfuel => by
    obtain ⟨he, hes⟩ : e.Legible ∧ LegibleList es := h
    rw [charsTail] at hfuel ⊢
    simp only [List.length_cons, List.length_append] at hfuel
    rw [List.append_assoc, spacedList]
    have hfirst := read?_chars he fuel _ (by omega) (ends_charsTail es rest)
    have htail := readTail?_chars hes fuel rest (by omega)
    exact readTail?_cons hfirst htail

end

/-! ## Trees of one text -/

/-- The whole text of a legible tree reads back as the tree with the brackets that it shows. -/
theorem read?_text (h : e.Legible) :
    read? (e.text.toList.length + 1) e.text.toList = some (e.spaced, []) := by
  have hread := read?_chars h (e.chars.length + 1) [] (Nat.lt_succ_self _) (by simp [Ends])
  rwa [List.append_nil, ← toList_text] at hread

/-- Two legible trees of one text are one tree but for brackets, and are worth the same under all
bindings. -/
theorem same_of_text_eq {e e' : Expr} (h : e.Legible) (h' : e'.Legible) (htext : e.text = e'.text) :
    e.bare = e'.bare ∧ ∀ b : Bindings, e.eval b = e'.eval b := by
  have hspaced : e.spaced = e'.spaced := by
    have hread := read?_text h
    rw [htext, read?_text h', Option.some_inj] at hread
    exact (congrArg Prod.fst hread).symm
  refine ⟨?_, fun b => ?_⟩
  · rw [← bare_spaced e, hspaced, bare_spaced e']
  · rw [← eval_spaced b e, hspaced, eval_spaced b e']

/-- An index in which one minus sign stands behind another: the brackets that keep the two apart
may be a node of their own. -/
def twiceNegated (inner : Expr → Expr) : Expr :=
  index (identifier "a") (neg (inner (neg (identifier "i"))))

theorem same_of_text_eq_twiceNegated :
    (twiceNegated id).Legible ∧ (twiceNegated paren).Legible ∧
      (twiceNegated id).text = (twiceNegated paren).text ∧
      twiceNegated id ≠ twiceNegated paren ∧
      (twiceNegated id).bare = (twiceNegated paren).bare ∧
      ∀ b : Bindings, (twiceNegated id).eval b = (twiceNegated paren).eval b :=
  have hname (c : Char) (hc : c.isAlpha = true) : IsName [c] := ⟨by rw [hc, Bool.true_or], rfl⟩
  have h : (twiceNegated id).Legible :=
    ⟨rfl, ⟨hname 'a' (by decide), by decide, by decide⟩, hname 'i' (by decide), by decide, by decide⟩
  have h' : (twiceNegated paren).Legible :=
    ⟨rfl, ⟨hname 'a' (by decide), by decide, by decide⟩, hname 'i' (by decide), by decide, by decide⟩
  have htext : (twiceNegated id).text = (twiceNegated paren).text := by decide
  ⟨h, h', htext, by decide, same_of_text_eq h h' htext⟩

end Expr

end Camouflage
