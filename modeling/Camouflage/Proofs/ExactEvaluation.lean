import Camouflage.Proofs.UnboundedIntegers

/-!
# Arithmetic of abstract integers

An abstract integer is exact or there is none. Which operations are refused is said here of the
integers alone, by the divisor and by the range of the exact result (`Expr.refusal?`). Each
operation that is evaluated either meets its refusal or gives the word of its integer
(`Settles`), and so does a whole expression, whose refusal is the first one in the order in which
its parts are computed (`Expr.Arithmetic.settles`). Main statement:
`Expr.eval_exact_or_first_refusal`.
-/

namespace Camouflage

/-! ## What is refused -/

/-- The fault of an exact result that is no 64-bit word. -/
def overflow? (operation : ExactOperation) (n : Int) : Option Fault :=
  if -2 ^ 63 ≤ n ∧ n < 2 ^ 63 then none else some (.overflow operation)

namespace BinaryOp

/-- What the overflow of an operator is reported as. -/
def operation : BinaryOp → ExactOperation
  | add => .addition
  | subtract => .subtraction
  | multiply => .multiplication
  | divide => .division
  | modulo => .remainder

/-- The fault of an operator on two integers: a divisor of zero, the one remainder whose quotient
is out of range, or a result that is. -/
def refusal? (op : BinaryOp) (m n : Int) : Option Fault :=
  if op = divide ∧ n = 0 then some .divisionByZero
  else if op = modulo ∧ n = 0 then some .remainderByZero
  else if op = modulo ∧ m = -2 ^ 63 ∧ n = -1 then some (.overflow .remainder)
  else overflow? op.operation (op.onIntegers m n)

end BinaryOp

namespace Expr

/-- The fault of a single operation, if all of its operands are worth integers. -/
def refusal? (b : Bindings) : Expr → Option Fault
  | unary .negate target => do overflow? .negation (-(← target.integer? b))
  | binary op lhs rhs => do op.refusal? (← lhs.integer? b) (← rhs.integer? b)
  | call callee [arg] =>
    if callee = "abs" then do overflow? .absolute |← arg.integer? b| else none
  | _ => none

end Expr

/-! ## Single operations -/

/-- An operation that is refused ends in its fault, and another one in the word of its integer. -/
inductive Settles (refusal? : Option Fault) (n? : Option Int) (result : Except Fault Value) : Prop
  | refused {fault} : refusal? = some fault → result = .error fault →
      Settles refusal? n? result
  | exact {word : Int64} : refusal? = none → n? = some word.toInt →
      result = .ok (.abstractInt word) → Settles refusal? n? result

/-- A step behind another one is only taken from a word, so that an earlier refusal counts. -/
theorem Settles.bind {refusal? refusal?' : Option Fault} {n? n?' : Option Int}
    {result : Except Fault Value} {next : Value → Except Fault Value}
    (h : Settles refusal? n? result)
    (hnext : ∀ word : Int64, n? = some word.toInt → result = .ok (.abstractInt word) →
      Settles refusal?' n?' (next (.abstractInt word))) :
    Settles (refusal?.or refusal?') n?' (result >>= next) := by
  cases h with
  | @refused fault hrefusal herror =>
    rw [hrefusal, herror]
    exact .refused rfl rfl
  | @exact word hnone hinteger hok =>
    have hsettles := hnext word hinteger hok
    rw [hnone, hok]
    exact hsettles

theorem Value.settles_exact (operation : ExactOperation) (n : Int) :
    Settles (overflow? operation n) (some n) (exact operation n) := by
  have hmin := Int64.toInt_minValue
  have hmax := Int64.toInt_maxValue
  by_cases h : -2 ^ 63 ≤ n ∧ n < 2 ^ 63
  · have hword : (Int64.ofInt n).toInt = n := Int64.toInt_ofInt_of_le h.1 h.2
    exact .exact (if_pos h) (by rw [hword]) (exact_eq_ok_iff.2 ⟨_, hword, rfl⟩)
  · refine .refused (if_neg h) ?_
    rw [exact, int64?, if_neg (by omega)]

namespace BinaryOp

/-- The least integer over minus one is the only quotient that is out of range. -/
theorem tdiv_lt_iff {m n : Int} (hlow : -2 ^ 63 ≤ m) (hhigh : m < 2 ^ 63) :
    m.tdiv n < 2 ^ 63 ↔ ¬(m = -2 ^ 63 ∧ n = -1) := by
  constructor
  · rintro h ⟨rfl, rfl⟩
    exact absurd h (by decide)
  · intro hne
    have hquotient : (m.tdiv n).natAbs = m.natAbs / n.natAbs := Int.natAbs_tdiv m n
    rcases Nat.lt_or_ge n.natAbs 2 with hunit | htwo
    · obtain rfl | rfl | rfl : n = 0 ∨ n = 1 ∨ n = -1 := by omega
      · rw [Int.tdiv_zero]
        decide
      · rwa [Int.tdiv_one]
      · rw [Int.tdiv_neg, Int.tdiv_one]
        omega
    · have hhalf : m.natAbs / n.natAbs ≤ m.natAbs / 2 := Nat.div_le_div_left htwo (by decide)
      omega

theorem int64?_tdiv_eq_none_iff {m n : Int} (hlow : -2 ^ 63 ≤ m) (hhigh : m < 2 ^ 63) :
    int64? (m.tdiv n) = none ↔ m = -2 ^ 63 ∧ n = -1 := by
  have hmin := Int64.toInt_minValue
  have hmax := Int64.toInt_maxValue
  have hmagnitude := Int.natAbs_tdiv_le_natAbs m n
  have hbelow := tdiv_lt_iff (n := n) hlow hhigh
  rw [int64?]
  split
  · simp only [reduceCtorEq, false_iff]
    exact hbelow.1 (by omega)
  · simp only [true_iff]
    by_contra hne
    have := hbelow.2 hne
    omega

theorem refusal?_of_ne_zero {op : BinaryOp} {m n : Int} (hn : n ≠ 0)
    (hleast : ¬(op = modulo ∧ m = -2 ^ 63 ∧ n = -1)) :
    op.refusal? m n = overflow? op.operation (op.onIntegers m n) := by
  rw [refusal?, if_neg fun h => hn h.2, if_neg fun h => hn h.2, if_neg hleast]

theorem settles_applyExact (op : BinaryOp) (m n : Int64) :
    Settles (op.refusal? m.toInt n.toInt) (op.onIntegers? m.toInt n.toInt)
      (op.applyExact m.toInt n.toInt) := by
  cases op with
  | add => exact Value.settles_exact .addition _
  | subtract => exact Value.settles_exact .subtraction _
  | multiply => exact Value.settles_exact .multiplication _
  | divide =>
    by_cases hzero : n.toInt = 0
    · exact .refused (if_pos ⟨rfl, hzero⟩) (if_pos hzero)
    · have happly : divide.applyExact m.toInt n.toInt =
          Value.exact .division (m.toInt.tdiv n.toInt) := if_neg hzero
      rw [refusal?_of_ne_zero hzero (by simp), onIntegers?_of_ne_zero _ _ hzero, happly]
      exact Value.settles_exact .division _
  | modulo =>
    have hquotient := int64?_tdiv_eq_none_iff (n := n.toInt) m.le_toInt m.toInt_lt
    by_cases hzero : n.toInt = 0
    · exact .refused (by simp [refusal?, hzero]) (if_pos hzero)
    · by_cases hleast : m.toInt = -2 ^ 63 ∧ n.toInt = -1
      · have happly : modulo.applyExact m.toInt n.toInt = .error (.overflow .remainder) :=
          (if_neg hzero).trans (if_pos (by rw [hquotient.2 hleast]; rfl))
        exact .refused (by simp [refusal?, hleast]) happly
      · have happly : modulo.applyExact m.toInt n.toInt =
            Value.exact .remainder (m.toInt.tmod n.toInt) :=
          (if_neg hzero).trans (if_neg (by rwa [Option.isNone_iff_eq_none, hquotient]))
        rw [refusal?_of_ne_zero hzero fun h => hleast h.2, onIntegers?_of_ne_zero _ _ hzero, happly]
        exact Value.settles_exact .remainder _

end BinaryOp

/-! ## Expressions -/

namespace Expr

variable {b : Bindings} {e target lhs rhs arg : Expr}

/-- The refusal of the first part that has one, in the order in which parts are computed. -/
def firstRefusal? (b : Bindings) (e : Expr) : Option Fault := e.postorder.findSome? (refusal? b)

theorem firstRefusal?_of_leaf (h : e.isOperation = false) : e.firstRefusal? b = none := by
  rw [firstRefusal?, postorder_of_leaf h, List.findSome?_singleton]
  fun_cases refusal? b e <;> simp_all [isOperation]

theorem firstRefusal?_unary (op : UnaryOp) (target : Expr) :
    (unary op target).firstRefusal? b =
      (target.firstRefusal? b).or ((unary op target).refusal? b) := by
  simp only [firstRefusal?, postorder, List.findSome?_append, List.findSome?_singleton]

theorem firstRefusal?_binary (op : BinaryOp) (lhs rhs : Expr) :
    (binary op lhs rhs).firstRefusal? b =
      ((lhs.firstRefusal? b).or (rhs.firstRefusal? b)).or ((binary op lhs rhs).refusal? b) := by
  simp only [firstRefusal?, postorder, List.findSome?_append, List.findSome?_singleton]

theorem firstRefusal?_absolute (arg : Expr) :
    (call "abs" [arg]).firstRefusal? b =
      (arg.firstRefusal? b).or ((call "abs" [arg]).refusal? b) := by
  simp only [firstRefusal?, postorder, if_true, List.findSome?_append, List.findSome?_singleton]

theorem firstRefusal?_paren (inner : Expr) :
    inner.paren.firstRefusal? b = inner.firstRefusal? b := by
  simp only [firstRefusal?, postorder, List.findSome?_append, List.findSome?_singleton, refusal?,
    Option.or_none]

/-! ### Parts in their order -/

theorem settles_negate
    (h : Settles (target.firstRefusal? b) (target.unbounded? b) (target.eval b)) :
    Settles (target.neg.firstRefusal? b) (target.neg.unbounded? b) (target.neg.eval b) := by
  rw [firstRefusal?_unary, eval]
  refine h.bind fun word hinteger hok => ?_
  rw [unbounded?, hinteger, refusal?, integer?_of_eval hok]
  exact Value.settles_exact .negation (-word.toInt)

theorem settles_absolute (h : Settles (arg.firstRefusal? b) (arg.unbounded? b) (arg.eval b)) :
    Settles ((call "abs" [arg]).firstRefusal? b) ((call "abs" [arg]).unbounded? b)
      ((call "abs" [arg]).eval b) := by
  have heval : (call "abs" [arg]).eval b =
      arg.eval b >>= fun v => Value.call "abs" [v] := by
    rw [eval, evalList, evalList]
    cases arg.eval b <;> rfl
  rw [firstRefusal?_absolute, heval]
  refine h.bind fun word hinteger hok => ?_
  have habs : Value.call "abs" [.abstractInt word] = Value.exact .absolute |word.toInt| := by
    rw [← Int.natCast_natAbs]
    rfl
  rw [unbounded?, if_pos rfl, hinteger, refusal?, if_pos rfl, integer?_of_eval hok, habs]
  exact Value.settles_exact .absolute |word.toInt|

theorem settles_binary (op : BinaryOp)
    (hl : Settles (lhs.firstRefusal? b) (lhs.unbounded? b) (lhs.eval b))
    (hr : Settles (rhs.firstRefusal? b) (rhs.unbounded? b) (rhs.eval b)) :
    Settles ((binary op lhs rhs).firstRefusal? b) ((binary op lhs rhs).unbounded? b)
      ((binary op lhs rhs).eval b) := by
  rw [firstRefusal?_binary, eval, Option.or_assoc]
  refine hl.bind fun m hm hokl => hr.bind fun n hn hokr => ?_
  rw [unbounded?, hm, hn, refusal?, integer?_of_eval hokl, integer?_of_eval hokr]
  exact op.settles_applyExact m n

/-- An expression of abstract integers meets the first refusal of its parts, or is worth its
integer. -/
theorem Arithmetic.settles {allowed : Expr → Prop} (h : e.Arithmetic b .abstractInt allowed) :
    Settles (e.firstRefusal? b) (e.unbounded? b) (e.eval b) := by
  induction h with
  | @leaf e v hleaf hv hscalar =>
    cases v with
    | abstractInt word =>
      exact .exact (firstRefusal?_of_leaf hleaf) (unbounded?_of_leaf hleaf hv) hv
    | _ => cases hscalar
  | negate _ _ ih => exact settles_negate ih
  | @binary op lhs rhs _ _ _ ihl ihr => exact settles_binary op ihl ihr
  | absolute _ _ ih => exact settles_absolute ih
  | @paren inner _ ih =>
    rw [firstRefusal?_paren, unbounded?, eval_paren]
    exact ih

/-- An expression of operators, negations, brackets and magnitudes over abstract integers: if it
has a value, that is its integer without bound. It has none exactly if one of its parts, whose
operands have values, divides by zero or leaves the range of 64-bit words, and the fault is that
of the first such part, from the leaves on and from left to right. -/
theorem eval_exact_or_first_refusal (h : e.Arithmetic b .abstractInt fun _ => True) :
    (∀ v, e.eval b = .ok v →
      ∃ word : Int64, v = .abstractInt word ∧ e.unbounded? b = some word.toInt) ∧
    ((∃ fault, e.eval b = .error fault) ↔
      ∃ part ∈ e.postorder, ∃ fault, part.refusal? b = some fault) ∧
    ∀ fault, e.eval b = .error fault ↔
      ∃ earlier part later, e.postorder = earlier ++ part :: later ∧
        part.refusal? b = some fault ∧ ∀ x ∈ earlier, x.refusal? b = none := by
  have hfault : ∀ fault, e.eval b = .error fault ↔ e.firstRefusal? b = some fault := by
    intro fault
    cases h.settles with
    | refused hrefusal herror => rw [hrefusal, herror, Except.error.injEq, Option.some.injEq]
    | exact hnone _ hok => simp [hnone, hok]
  refine ⟨fun v hv => ?_, ?_, fun fault => (hfault fault).trans List.findSome?_eq_some_iff⟩
  · cases h.settles with
    | refused _ herror =>
      rw [herror] at hv
      cases hv
    | @exact word _ hinteger hok => exact ⟨word, (Except.ok.inj (hok.symm.trans hv)).symm, hinteger⟩
  · simp only [hfault]
    rw [← Option.isSome_iff_exists, firstRefusal?, List.findSome?_isSome_iff]
    simp only [Option.isSome_iff_exists]

/-- In `x % -1 + 1 / 0` both operands are refused for the least word, and the left one counts. -/
theorem eval_exact_or_first_refusal_least :
    let b := Bindings.empty.bind (identifier "x") (.abstractInt Int64.minValue)
    let left := Expr.binary .modulo (identifier "x") (intLiteral "1").neg
    let right := Expr.binary .divide (intLiteral "1") (intLiteral "0")
    (Expr.binary .add left right).Arithmetic b .abstractInt (fun _ => True) ∧
      right.refusal? b = some .divisionByZero ∧
      (Expr.binary .add left right).eval b = .error (.overflow .remainder) := by
  intro b left right
  have hx : (identifier "x").eval b = .ok (.abstractInt Int64.minValue) :=
    Bindings.lookup_bind_self .empty (identifier "x") _
  have hone : (intLiteral "1").eval b = .ok (.abstractInt 1) := rfl
  have hzero : (intLiteral "0").eval b = .ok (.abstractInt 0) := rfl
  have harithmetic : (Expr.binary .add left right).Arithmetic b .abstractInt fun _ => True :=
    .binary trivial
      (.binary trivial (.leaf rfl hx rfl) (.negate trivial (.leaf rfl hone rfl)))
      (.binary trivial (.leaf rfl hone rfl) (.leaf rfl hzero rfl))
  have hleft : left.refusal? b = some (.overflow .remainder) := by
    rw [refusal?, integer?_of_eval hx, integer?_of_eval ((eval_unary hone).trans rfl)]
    rfl
  refine ⟨harithmetic, rfl, ((eval_exact_or_first_refusal harithmetic).2.2 _).2 ?_⟩
  refine ⟨[identifier "x", intLiteral "1", (intLiteral "1").neg], left, _, rfl, hleft, ?_⟩
  intro part hpart
  simp only [List.mem_cons, List.not_mem_nil, or_false] at hpart
  rcases hpart with rfl | rfl | rfl <;> rfl

end Expr

end Camouflage
