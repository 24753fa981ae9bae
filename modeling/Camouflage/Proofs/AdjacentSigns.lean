import Camouflage.Expr.Text

/-!
# Two minus signs side by side

A shader reads two adjacent minus signs as a decrement. The text of a tree holds two exactly where
a negation is applied to lookups that start from a negation (`Expr.hasDecrement_iff_collides`):
a lookup is written without brackets around what it looks into, so that the sign under it comes
first.
-/

namespace Camouflage

/-! ## Adjacent signs in a text -/

namespace Text

variable {c : Char} {cs xs ys : List Char}

/-- Two minus signs stand side by side. -/
def HasDecrement (cs : List Char) : Prop := ['-', '-'] <:+: cs

instance : DecidablePred HasDecrement := fun cs => inferInstanceAs (Decidable (_ <:+: cs))

theorem not_hasDecrement (h : '-' ∉ cs) : ¬ HasDecrement cs :=
  fun hpair => h (hpair.subset List.mem_cons_self)

theorem head?_ne_minus (h : '-' ∉ cs) : cs.head? ≠ some '-' :=
  fun hhead => h (List.mem_of_head? hhead)

theorem hasDecrement_cons (h : c ≠ '-') : HasDecrement (c :: cs) ↔ HasDecrement cs := by
  simp [HasDecrement, List.infix_cons_iff, h.symm]

theorem hasDecrement_minus : HasDecrement ('-' :: cs) ↔ cs.head? = some '-' ∨ HasDecrement cs := by
  cases cs with
  | nil => decide
  | cons d cs => simp [HasDecrement, List.infix_cons_iff, eq_comm]

/-- A sign in front of a blank is no part of a pair. -/
theorem hasDecrement_cons_blank : HasDecrement (c :: ' ' :: cs) ↔ HasDecrement cs := by
  have hblank : HasDecrement (' ' :: cs) ↔ HasDecrement cs := hasDecrement_cons (by decide)
  by_cases hc : c = '-'
  · subst hc
    simp [hasDecrement_minus, hblank]
  · rw [hasDecrement_cons hc, hblank]

theorem head?_append_iff (h : ys.head? ≠ some '-') :
    (xs ++ ys).head? = some '-' ↔ xs.head? = some '-' := by
  cases xs with
  | nil => simp [h]
  | cons x xs => rfl

/-- Where the second text starts with another character, no pair arises between two texts. -/
theorem hasDecrement_append (h : ys.head? ≠ some '-') :
    HasDecrement (xs ++ ys) ↔ HasDecrement xs ∨ HasDecrement ys := by
  induction xs with
  | nil => simp [not_hasDecrement]
  | cons x xs ih =>
    rw [List.cons_append]
    by_cases hx : x = '-'
    · subst hx
      rw [hasDecrement_minus, hasDecrement_minus, head?_append_iff h, ih, or_assoc]
    · rw [hasDecrement_cons hx, hasDecrement_cons hx, ih]

theorem hasDecrement_append_cons (h : c ≠ '-') :
    HasDecrement (xs ++ c :: ys) ↔ HasDecrement xs ∨ HasDecrement ys := by
  rw [hasDecrement_append (by simpa using h), hasDecrement_cons h]

theorem head?_append_cons (h : c ≠ '-') :
    (xs ++ c :: ys).head? = some '-' ↔ xs.head? = some '-' :=
  head?_append_iff (by simpa using h)

end Text

open Text

namespace Expr

/-! ## Trees without signs in their words -/

mutual

/-- No name and no literal has a minus sign in it. -/
def Signless : Expr → Prop
  | boolLiteral _ => True
  | intLiteral text => '-' ∉ text.toList
  | floatLiteral text => '-' ∉ text.toList
  | identifier name => '-' ∉ name.toList
  | member receiver name => receiver.Signless ∧ '-' ∉ name.toList
  | index target position => target.Signless ∧ position.Signless
  | unary _ target => target.Signless
  | binary _ lhs rhs => lhs.Signless ∧ rhs.Signless
  | call callee args => '-' ∉ callee.toList ∧ SignlessList args
  | construct _ args => SignlessList args
  | paren inner => inner.Signless
termination_by structural e => e

def SignlessList : List Expr → Prop
  | [] => True
  | e :: es => e.Signless ∧ SignlessList es
termination_by structural es => es

end

/-- Whether the text starts with a sign: a negation, or lookups that start from one. -/
def leadsWithSign : Expr → Bool
  | unary .. => true
  | member receiver _ => receiver.leadsWithSign
  | index target _ => target.leadsWithSign
  | _ => false

mutual

/-- Whether some negation in the tree is applied to lookups, one or more, that start from a
negation. -/
def collides : Expr → Bool
  | boolLiteral _ | intLiteral _ | floatLiteral _ | identifier _ => false
  | member receiver _ => receiver.collides
  | index target position => target.collides || position.collides
  | unary _ target => (!target.isUnary && target.leadsWithSign) || target.collides
  | binary _ lhs rhs => lhs.collides || rhs.collides
  | call _ args => collidesList args
  | construct _ args => collidesList args
  | paren inner => inner.collides
termination_by structural e => e

def collidesList : List Expr → Bool
  | [] => false
  | e :: es => e.collides || collidesList es
termination_by structural es => es

end

/-! ## Signs in a text and in its tree -/

theorem head?_charsTail (es : List Expr) : (charsTail es).head? ≠ some '-' := by
  cases es with
  | nil => simp [charsTail]
  | cons e es => simp [charsTail]

theorem not_mem_text (ty : Scalar) : '-' ∉ ty.text.toList := by
  cases ty with
  | _ => decide

theorem head?_chars : ∀ {e : Expr}, e.Signless →
    (e.chars.head? = some '-' ↔ e.leadsWithSign = true)
  | boolLiteral true, _ => by decide
  | boolLiteral false, _ => by decide
  | intLiteral text, h => by simpa [chars, leadsWithSign] using head?_ne_minus h
  | floatLiteral text, h => by simpa [chars, leadsWithSign] using head?_ne_minus h
  | identifier name, h => by simpa [chars, leadsWithSign] using head?_ne_minus h
  | member receiver name, h => by
    rw [chars, head?_append_cons (by decide), head?_chars h.1, leadsWithSign]
  | index target position, h => by
    rw [chars, List.append_assoc, List.cons_append, head?_append_cons (by decide), head?_chars h.1,
      leadsWithSign]
  | unary .negate target, _ => by
    rw [chars]
    split
    · simp [leadsWithSign]
    · simp [leadsWithSign]
  | binary op lhs rhs, _ => by simp [chars, leadsWithSign]
  | call callee args, h => by
    rw [chars, List.append_assoc, List.cons_append, head?_append_cons (by decide)]
    simpa [leadsWithSign] using head?_ne_minus h.1
  | construct ty args, _ => by
    rw [chars, List.append_assoc, List.cons_append, head?_append_cons (by decide)]
    simpa [leadsWithSign] using head?_ne_minus (not_mem_text ty)
  | paren inner, _ => by simp [chars, leadsWithSign]

mutual

theorem hasDecrement_chars : ∀ {e : Expr}, e.Signless →
    (HasDecrement e.chars ↔ e.collides = true)
  | boolLiteral true, _ => by decide
  | boolLiteral false, _ => by decide
  | intLiteral text, h => by simpa [chars, collides] using not_hasDecrement h
  | floatLiteral text, h => by simpa [chars, collides] using not_hasDecrement h
  | identifier name, h => by simpa [chars, collides] using not_hasDecrement h
  | member receiver name, h => by
    have hname := not_hasDecrement h.2
    rw [chars, hasDecrement_append_cons (by decide), hasDecrement_chars h.1, collides]
    simp [hname]
  | index target position, h => by
    rw [chars, List.append_assoc, List.cons_append, hasDecrement_append_cons (by decide),
      hasDecrement_append_cons (by decide), hasDecrement_chars h.1, hasDecrement_chars h.2,
      collides, Bool.or_eq_true]
    simp [not_hasDecrement]
  | unary .negate target, h => by
    have htarget : target.Signless := h
    rw [chars, collides]
    split
    · rename_i hunary
      rw [List.cons_append, List.cons_append, hasDecrement_minus, hasDecrement_cons (by decide),
        hasDecrement_append_cons (by decide), hasDecrement_chars htarget]
      simp [hunary, not_hasDecrement]
    · rename_i hother
      rw [hasDecrement_minus, head?_chars htarget, hasDecrement_chars htarget]
      simp [hother]
  | binary op lhs rhs, h => by
    have htext : (binary op lhs rhs).chars =
        '(' :: (lhs.chars ++ ' ' :: op.sign :: ' ' :: (rhs.chars ++ [')'])) := by
      simp [chars]
    rw [htext, hasDecrement_cons (by decide), hasDecrement_append_cons (by decide),
      hasDecrement_cons_blank, hasDecrement_append_cons (by decide), hasDecrement_chars h.1,
      hasDecrement_chars h.2, collides, Bool.or_eq_true]
    simp [not_hasDecrement]
  | call callee args, h => by
    have hcallee := not_hasDecrement h.1
    rw [chars, List.append_assoc, List.cons_append, hasDecrement_append_cons (by decide),
      hasDecrement_append_cons (by decide), hasDecrement_charsList h.2, collides]
    simp [hcallee, not_hasDecrement]
  | construct ty args, h => by
    have hargs : SignlessList args := h
    have htype := not_hasDecrement (not_mem_text ty)
    rw [chars, List.append_assoc, List.cons_append, hasDecrement_append_cons (by decide),
      hasDecrement_append_cons (by decide), hasDecrement_charsList hargs, collides]
    simp [htype, not_hasDecrement]
  | paren inner, h => by
    have hinner : inner.Signless := h
    rw [chars, List.cons_append, hasDecrement_cons (by decide), hasDecrement_append_cons (by decide),
      hasDecrement_chars hinner, collides]
    simp [not_hasDecrement]

theorem hasDecrement_charsList : ∀ {es : List Expr}, SignlessList es →
    (HasDecrement (charsList es) ↔ collidesList es = true)
  | [], _ => by decide
  | e :: es, h => by
    rw [charsList, hasDecrement_append (head?_charsTail es), hasDecrement_chars h.1,
      hasDecrement_charsTail h.2, collidesList, Bool.or_eq_true]

theorem hasDecrement_charsTail : ∀ {es : List Expr}, SignlessList es →
    (HasDecrement (charsTail es) ↔ collidesList es = true)
  | [], _ => by decide
  | e :: es, h => by
    rw [charsTail, List.cons_append, hasDecrement_cons (by decide), List.cons_append,
      hasDecrement_cons (by decide), hasDecrement_append (head?_charsTail es),
      hasDecrement_chars h.1, hasDecrement_charsTail h.2, collidesList, Bool.or_eq_true]

end

/-- The text of a tree holds two adjacent minus signs exactly if some negation in the tree is
applied to lookups that start from a negation. -/
theorem hasDecrement_iff_collides {e : Expr} (h : e.Signless) :
    HasDecrement e.text.toList ↔ e.collides = true := by
  rw [toList_text, hasDecrement_chars h]

/-- The negation of a lookup into a negation. -/
def negatedLookup : Expr := neg (member (neg (identifier "u")) "x")

theorem signless_negatedLookup : negatedLookup.Signless := by
  refine ⟨?_, by decide⟩
  show '-' ∉ "u".toList
  decide

theorem hasDecrement_iff_collides_negatedLookup :
    negatedLookup.Signless ∧ negatedLookup.text = "--u.x" ∧ HasDecrement negatedLookup.text.toList :=
  ⟨signless_negatedLookup, by decide, (hasDecrement_iff_collides signless_negatedLookup).2 rfl⟩

/-- Words without a sign are not enough: the text keeps apart only a negation and one directly
under it. -/
theorem signless_insufficient : ¬ ∀ e : Expr, e.Signless → ¬ HasDecrement e.text.toList :=
  fun hall => hall negatedLookup signless_negatedLookup (by decide)

end Expr

end Camouflage
