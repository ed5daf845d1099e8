import WhileLang.Environment.Lemmas
import WhileLang.Proofs.Redex

/-!
# Why a redex has no step

A redex either contracts or has one of the faults listed here. There are more of them
than there are errors, because one error can be met in several places: a statement may
stand as either operand or on the right side of an assignment. In each place only settled
terms are asked anything, and a settled term is a value or `do-nothing`; so what an error
quotes is the text of one of these and never that of a program still to be run.

A step fails exactly if its redex has a fault, however deep that lies
(`reduce_eq_error_iff_faults`).
-/

namespace WhileLang

variable {ν : Type} [Arithmetic ν]

namespace Term

theorem render_ofValue (v : Value ν) : (ofValue v).render = v.render := by
  cases v <;> rfl

/-- In this environment, the redex has no step, and fails with this error. -/
inductive Faults : Term ν → Environment ν → EvalError ν → Prop where
  | unbound {name : Name} {env : Environment ν} (h : env.get? name = none) :
      Faults (var name) env (.unboundVariable name)
  | leftStatement (op : Operator) {right : Term ν} (h : right.isReducible = false)
      (env : Environment ν) :
      Faults (binary op doNothing right) env (.violation (.statementAsValue "do-nothing"))
  | rightStatement (op : Operator) (a : Value ν) (env : Environment ν) :
      Faults (binary op (ofValue a) doNothing) env (.violation (.statementAsValue "do-nothing"))
  | mismatch (op : Operator) {a b : Value ν} (h : a.kind = .boolean ∨ b.kind = .boolean)
      (env : Environment ν) :
      Faults (binary op (ofValue a) (ofValue b)) env
        (.violation (.operandMismatch op a.kind b.kind))
  | overflow {op : Operator} {a b : ν} {i : Int}
      (hi : op.exact (Arithmetic.toInt a) (Arithmetic.toInt b) = .number i)
      (hnone : (Arithmetic.ofInt? i : Option ν) = none) (env : Environment ν) :
      Faults (binary op (number a) (number b)) env (.arithmeticOverflow op a b)
  | assignedStatement (name : Name) (env : Environment ν) :
      Faults (assign name doNothing) env (.violation (.statementAsValue "do-nothing"))
  | numberCondition (n : ν) (consequence alternative : Term ν) (env : Environment ν) :
      Faults (ifElse (number n) consequence alternative) env
        (.violation (.nonBooleanCondition (Value.number n).render))
  | statementCondition (consequence alternative : Term ν) (env : Environment ν) :
      Faults (ifElse doNothing consequence alternative) env
        (.violation (.nonBooleanCondition "do-nothing"))
  | valueFirst (v : Value ν) (second : Term ν) (env : Environment ν) :
      Faults (sequence (ofValue v) second) env (.violation (.irreducible v.render))

/-- Values that an operator cannot be applied to are not both numbers, or are two numbers
whose exact result is none. -/
theorem faults_of_apply {op : Operator} {a b : Value ν} {e : EvalError ν}
    (h : op.apply a b = .error e) (env : Environment ν) :
    (binary op (ofValue a) (ofValue b)).Faults env e := by
  cases a with
  | boolean x =>
      cases h
      exact .mismatch op (.inl rfl) env
  | number m =>
      cases b with
      | boolean y =>
          cases h
          exact .mismatch op (.inr rfl) env
      | number n =>
          cases hexact : op.exact (Arithmetic.toInt m) (Arithmetic.toInt n) with
          | boolean holds =>
              simp only [Operator.apply, hexact] at h
              cases h
          | number i =>
              cases hi : (Arithmetic.ofInt? i : Option ν) with
              | some k =>
                  simp only [Operator.apply, hexact, hi] at h
                  cases h
              | none =>
                  simp only [Operator.apply, hexact, hi] at h
                  cases h
                  exact .overflow hexact hi env

theorem IsRedex.faults {t : Term ν} (ht : t.IsRedex) {env : Environment ν} {e : EvalError ν}
    (h : t.reduce env = .error e) : t.Faults env e := by
  cases ht with
  | var name =>
      rcases bind_eq_error_iff.mp h with h | ⟨v, -, h⟩
      · obtain ⟨hnone, rfl⟩ := Environment.lookup_eq_error_iff.mp h
        exact .unbound hnone
      · cases h
  | binary op hl hr =>
      rw [reduce_binary_of_settled op hl hr] at h
      rcases eq_doNothing_or_ofValue_of_settled hl with rfl | ⟨a, rfl⟩
      · cases h
        exact .leftStatement op hr env
      rw [operand_eq_ok_iff.mpr rfl] at h
      rcases eq_doNothing_or_ofValue_of_settled hr with rfl | ⟨b, rfl⟩
      · cases h
        exact .rightStatement op a env
      rw [operand_eq_ok_iff.mpr rfl] at h
      have h : (do return ⟨ofValue (← op.apply a b), env⟩ : Except (EvalError ν) (State ν)) =
          .error e := h
      rcases bind_eq_error_iff.mp h with h | ⟨v, -, h⟩
      · exact faults_of_apply h env
      · cases h
  | assign name hs =>
      rw [reduce_assign_of_settled name hs] at h
      rcases eq_doNothing_or_ofValue_of_settled hs with rfl | ⟨v, rfl⟩
      · cases h
        exact .assignedStatement name env
      · rw [operand_eq_ok_iff.mpr rfl] at h
        cases h
  | ifElse consequence alternative hs =>
      rw [reduce_ifElse_of_settled consequence alternative hs] at h
      rcases eq_doNothing_or_ofValue_of_settled hs with rfl | ⟨_ | holds, rfl⟩
      · cases h
        exact .statementCondition consequence alternative env
      · cases h
        exact .numberCondition _ consequence alternative env
      · cases h
  | sequence second hs =>
      rw [reduce_sequence_of_settled second hs] at h
      rcases eq_doNothing_or_ofValue_of_settled hs with rfl | ⟨v, rfl⟩
      · cases h
      · rcases bind_eq_error_iff.mp h with h | ⟨_, -, h⟩
        · rw [eq_of_finished_eq_error h, irreducible, render_ofValue]
          exact .valueFirst v second env
        · cases h
  | whileLoop condition body => cases h

theorem Faults.reduce {t : Term ν} {env : Environment ν} {e : EvalError ν}
    (h : t.Faults env e) : t.reduce env = .error e := by
  cases h with
  | unbound h =>
      rw [Term.reduce, Environment.lookup_eq_error_iff.mpr ⟨h, rfl⟩]
      rfl
  | leftStatement op h env =>
      rw [reduce_binary_of_settled op rfl h]
      rfl
  | rightStatement op a env =>
      rw [reduce_binary_of_settled op (isReducible_ofValue a) rfl, operand_eq_ok_iff.mpr rfl]
      rfl
  | @mismatch op a b h env =>
      rw [reduce_binary_of_settled op (isReducible_ofValue a) (isReducible_ofValue b),
        operand_eq_ok_iff.mpr rfl, operand_eq_ok_iff.mpr rfl]
      cases a with
      | boolean x => rfl
      | number m =>
          cases b with
          | boolean y => rfl
          | number n => cases h <;> contradiction
  | @overflow op a b i hi hnone env =>
      have happly : op.apply (.number a) (.number b) = .error (.arithmeticOverflow op a b) :=
        Operator.apply_eq_overflow_iff.mpr ⟨rfl, rfl, rfl, i, hi, hnone⟩
      rw [reduce_binary_of_settled op rfl rfl]
      show (op.apply (.number a) (.number b) >>= _) = _
      rw [happly]
      rfl
  | assignedStatement name env => rfl
  | numberCondition n consequence alternative env => rfl
  | statementCondition consequence alternative env => rfl
  | valueFirst v second env => cases v <;> rfl

/-- A step fails exactly if its redex has a fault, and with that. -/
theorem reduce_eq_error_iff_faults {t : Term ν} (ht : t.isReducible = true)
    {env : Environment ν} {e : EvalError ν} :
    t.reduce env = .error e ↔ t.redex.Faults env e :=
  (reduce_eq_error_iff ht).trans ⟨(isRedex_redex ht).faults, Faults.reduce⟩

theorem faults_unbound_iff {place : Term ν} {env : Environment ν} {name : Name} :
    place.Faults env (.unboundVariable name) ↔ place = var name ∧ env.get? name = none := by
  refine ⟨fun h => ?_, fun h => ?_⟩
  · cases h with
    | unbound h => exact ⟨rfl, h⟩
  · obtain ⟨rfl, h⟩ := h
    exact .unbound h

theorem faults_overflow_iff {place : Term ν} {env : Environment ν} {op : Operator} {a b : ν} :
    place.Faults env (.arithmeticOverflow op a b) ↔
      place = binary op (number a) (number b) ∧
        ∃ i, op.exact (Arithmetic.toInt a) (Arithmetic.toInt b) = .number i ∧
          (Arithmetic.ofInt? i : Option ν) = none := by
  refine ⟨fun h => ?_, fun h => ?_⟩
  · cases h with
    | overflow hi hnone env => exact ⟨rfl, _, hi, hnone⟩
  · obtain ⟨rfl, i, hi, hnone⟩ := h
    exact .overflow hi hnone env

end Term

/-- A run that fails has come to a state whose redex has that fault. -/
theorem State.Halts.faults {s : State ν} {n : Nat} {e : EvalError ν}
    (h : s.Halts n (.error e)) :
    ∃ t, after n s = .ok t ∧ t.step = .error e ∧ t.statement.redex.Faults t.environment e := by
  obtain ⟨t, hafter, hterm, hstep⟩ := h
  have ht := isTerminal_eq_false_iff.mp hterm
  exact ⟨t, hafter, hstep, (Term.reduce_eq_error_iff_faults ht).mp hstep⟩

end WhileLang
