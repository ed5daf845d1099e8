import WhileLang.Error
import WhileLang.Term

/-!
# What a settled term is good for

When a subterm has settled, its surroundings ask one of three things of it: its
value, as an operand or as the right side of an assignment; a truth value, as a
condition; or merely to be over, as the first part of a sequence. Each question
has its own error when the answer is no.

Both ways of evaluating ask these questions and no others, so what they can fail
with is decided here once.
-/

namespace WhileLang

variable {ν : Type} [Arithmetic ν]

namespace Term

/-- The error of asking a settled term for another step. -/
def irreducible (t : Term ν) : EvalError ν :=
  .violation (.irreducible t.render)

/-- The value that a settled term holds. -/
def operand (t : Term ν) : Except (EvalError ν) (Value ν) :=
  match t.value? with
  | some v => .ok v
  | none => .error (.violation (.statementAsValue t.render))

/-- The branch that a settled condition picks. -/
def truth : Term ν → Except (EvalError ν) Bool
  | boolean b => .ok b
  | t => .error (.violation (.nonBooleanCondition t.render))

/-- A settled first part gives way to what follows it only if it is `do-nothing`:
a value that nobody asked for blocks the sequence. -/
def finished : Term ν → Except (EvalError ν) Unit
  | doNothing => .ok ()
  | t => .error t.irreducible

theorem operand_eq_ok_iff {t : Term ν} {v : Value ν} : t.operand = .ok v ↔ t = ofValue v := by
  rw [← value?_eq_some_iff, operand]
  cases t.value? <;> simp

theorem operand_eq_error_iff {t : Term ν} {e : EvalError ν} :
    t.operand = .error e ↔ t.value? = none ∧ e = .violation (.statementAsValue t.render) := by
  rw [operand]
  cases t.value? <;> simp [eq_comm]

theorem eq_boolean_of_truth_eq_ok {t : Term ν} {b : Bool} (h : t.truth = .ok b) :
    t = boolean b := by
  cases t <;> simp_all [truth]

theorem eq_of_truth_eq_error {t : Term ν} {e : EvalError ν} (h : t.truth = .error e) :
    e = .violation (.nonBooleanCondition t.render) := by
  cases t <;> simp_all [truth]

theorem eq_doNothing_of_finished_eq_ok {t : Term ν} (h : t.finished = .ok ()) :
    t = doNothing := by
  cases t <;> simp_all [finished]

theorem eq_of_finished_eq_error {t : Term ν} {e : EvalError ν} (h : t.finished = .error e) :
    e = t.irreducible := by
  cases t <;> simp_all [finished]

end Term

/-- Applies an operator to two values. Only numbers are operands. The result is
computed among the integers and then has to be one of the numbers; a truth value
always is. -/
def Operator.apply (op : Operator) (left right : Value ν) :
    Except (EvalError ν) (Value ν) :=
  match left, right with
  | .number a, .number b =>
      match op.exact (Arithmetic.toInt a) (Arithmetic.toInt b) with
      | .boolean holds => .ok (.boolean holds)
      | .number i =>
          match Arithmetic.ofInt? i with
          | some n => .ok (.number n)
          | none => .error (.arithmeticOverflow op a b)
  | _, _ => .error (.violation (.operandMismatch op left.kind right.kind))

/-- An overflow is of two numbers, and the exact result is not one. -/
theorem Operator.apply_eq_overflow_iff {op op' : Operator} {left right : Value ν} {a b : ν} :
    op.apply left right = .error (.arithmeticOverflow op' a b) ↔
      op' = op ∧ left = .number a ∧ right = .number b ∧
        ∃ i, op.exact (Arithmetic.toInt a) (Arithmetic.toInt b) = .number i ∧
          (Arithmetic.ofInt? i : Option ν) = none := by
  constructor
  · intro h
    rw [apply.eq_def] at h
    split at h
    · split at h
      · cases h
      · next i hi =>
        split at h
        · cases h
        · next hnone =>
          cases h
          exact ⟨rfl, rfl, rfl, i, hi, hnone⟩
    · cases h
  · rintro ⟨rfl, rfl, rfl, i, hi, hnone⟩
    simp only [apply, hi, hnone]

end WhileLang
