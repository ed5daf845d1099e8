import WhileLang.Proofs.Agreement
import WhileLang.Proofs.Fault
import WhileLang.Proofs.Overflow

/-!
# Errors are accurate about the program

An error is raised wherever evaluation happens to be, and quotes a term, two kinds or two
numbers. `Describes` says of each error what has to be so at the place it speaks of: which
construct stands there, that the parts of it that are quoted are these, in this order, and
that they are a reason to fail. It is stated of the error as it is read, so that nothing an
error says depends on how it came about.

Faults are described by their errors, case by case; and every error, in whichever way a
program is evaluated, is the fault of a redex that the run of its steps comes to. The two
exceptions are the errors of the two limits, each of which is met only where there is
that limit.
-/

namespace WhileLang

/-- A number is written with digits and a sign, so any other character tells a text from
it. -/
theorem Value.render_number_ne {ν : Type} [Arithmetic ν] (n : ν) {text : String} {c : Char}
    (hmem : c ∈ text.toList) (hsign : c ≠ '-') (hdigit : c.isDigit = false) :
    (Value.number n).render ≠ text := by
  rintro rfl
  rw [render, Int.toString_eq_repr, Int.repr_eq_if] at hmem
  have hdigits : ∀ k : Nat, c ∉ k.repr.toList := by
    intro k hk
    rw [Nat.toList_repr] at hk
    rw [Nat.isDigit_of_mem_toDigits (by decide) (by decide) hk] at hdigit
    cases hdigit
  split at hmem
  · exact hdigits _ hmem
  · rw [String.toList_append, List.mem_append] at hmem
    rcases hmem with hmem | hmem
    · exact hsign (List.mem_singleton.mp hmem)
    · exact hdigits _ hmem

/-- What a violation says is so of the construct at this place. -/
def Violation.Describes {ν : Type} [Arithmetic ν] (place : Term ν) : Violation → Prop
  | irreducible text =>
      (∃ v second, place = .sequence (.ofValue v) second ∧ text = v.render) ∧
        text ≠ "do-nothing"
  | operandMismatch op left right =>
      (∃ a b, place = .binary op (.ofValue a) (.ofValue b) ∧ left = a.kind ∧ right = b.kind) ∧
        (left = .boolean ∨ right = .boolean)
  | nonBooleanCondition found =>
      (∃ condition consequence alternative,
        place = .ifElse condition consequence alternative ∧ found = condition.render ∧
          (condition = .doNothing ∨ ∃ n, condition = .number n)) ∧
        found ≠ "true" ∧ found ≠ "false"
  | statementAsValue text =>
      ((∃ op right, place = .binary op .doNothing right ∧ right.isReducible = false) ∨
        (∃ op a, place = .binary op (.ofValue a) .doNothing) ∨
        ∃ name, place = .assign name .doNothing) ∧
        text = "do-nothing"

/-- What an error says is so of the construct at this place, in this environment. The
errors of the limits speak of no place. -/
def EvalError.Describes (place : Term Int64) (env : Environment Int64) :
    EvalError Int64 → Prop
  | unboundVariable name => place = .var name ∧ env.get? name = none
  | violation cause => cause.Describes place
  | arithmeticOverflow op a b =>
      place = .binary op (.number a) (.number b) ∧ (op = .add ∨ op = .multiply) ∧
        op.Overflows a.toInt b.toInt
  | stepLimitExceeded _ | gasExhausted => False

/-- Only sums and products leave the range. -/
theorem Operator.Overflows.isArithmetic {op : Operator} {a b : Int} (h : op.Overflows a b) :
    op = .add ∨ op = .multiply := by
  cases op with
  | add => exact .inl rfl
  | multiply => exact .inr rfl
  | lessThan | greaterThan => cases h

namespace Term

theorem Faults.describes {place : Term Int64} {env : Environment Int64} {e : EvalError Int64}
    (h : place.Faults env e) : e.Describes place env := by
  cases h with
  | unbound h => exact ⟨rfl, h⟩
  | leftStatement op h env => exact ⟨.inl ⟨op, _, rfl, h⟩, rfl⟩
  | rightStatement op a env => exact ⟨.inr (.inl ⟨op, a, rfl⟩), rfl⟩
  | mismatch op h env => exact ⟨⟨_, _, rfl, rfl, rfl⟩, h⟩
  | overflow hi hnone env =>
      have hover := Operator.overflows_iff.mpr ⟨_, hi, hnone⟩
      exact ⟨rfl, hover.isArithmetic, hover⟩
  | assignedStatement name env => exact ⟨.inr (.inr ⟨name, rfl⟩), rfl⟩
  | numberCondition n consequence alternative env =>
      refine ⟨⟨_, _, _, rfl, rfl, .inr ⟨n, rfl⟩⟩, ?_, ?_⟩
      · exact Value.render_number_ne n (c := 't') (by decide) (by decide) (by decide)
      · exact Value.render_number_ne n (c := 'f') (by decide) (by decide) (by decide)
  | statementCondition consequence alternative env =>
      exact ⟨⟨_, _, _, rfl, rfl, .inl rfl⟩, by decide, by decide⟩
  | valueFirst v second env =>
      refine ⟨⟨v, second, rfl, rfl⟩, ?_⟩
      rcases v with n | _ | _
      · exact Value.render_number_ne n (c := 'd') (by decide) (by decide) (by decide)
      · decide
      · decide

/-- A run that fails has come to the place that its error describes. -/
theorem describes_of_halts {t : Term Int64} {env : Environment Int64} {n : Nat}
    {e : EvalError Int64} (h : State.Halts ⟨t, env⟩ n (.error e)) :
    ∃ s, State.after n ⟨t, env⟩ = .ok s ∧ s.step = .error e ∧
      e.Describes s.statement.redex s.environment := by
  obtain ⟨s, hs, hstep, hfaults⟩ := h.faults
  exact ⟨s, hs, hstep, hfaults.describes⟩

/-- Every error is accurate about the program. That of a step describes the place of the
step. That of a machine is the error of its step limit, or its steps come to a state that
fails with it, at the place it describes; and so it is with that of an evaluation, unless
there is a gas limit and the gas is exhausted. -/
theorem errors_describe_program (t : Term Int64) (env : Environment Int64) :
    (∀ e, t.isReducible = true → t.reduce env = .error e → e.Describes t.redex env) ∧
    (∀ config fuel e, (Machine.start t env config).run? fuel = some (.error e) →
      (∃ limit, config.stepLimit = some limit ∧ e = .stepLimitExceeded limit) ∨
        ∃ n s, State.after n ⟨t, env⟩ = .ok s ∧ s.step = .error e ∧
          e.Describes s.statement.redex s.environment) ∧
    ∀ m m' e, t.Evaluates env m (.error e) m' →
      (∃ limit, m.gasLimit = some limit ∧ e = .gasExhausted) ∨
        ∃ n s, State.after n ⟨t, env⟩ = .ok s ∧ s.step = .error e ∧
          e.Describes s.statement.redex s.environment := by
  refine ⟨fun e ht h => ?_, fun config fuel e h => ?_, fun m m' e h => ?_⟩
  · exact ((reduce_eq_error_iff_faults ht).mp h).describes
  · rcases Machine.halts_of_run? h with ⟨limit, hlimit, he⟩ | ⟨n, hn⟩
    · cases he
      exact .inl ⟨limit, hlimit, rfl⟩
    · exact .inr ⟨n, describes_of_halts hn⟩
  · rcases h.halts with ⟨limit, hlimit, he⟩ | ⟨n, hn⟩
    · cases he
      exact .inl ⟨limit, hlimit, rfl⟩
    · exact .inr ⟨n, describes_of_halts hn⟩

/-- A product fails in both ways of evaluating the program, though its right operand is not
settled at first; the error has the kinds of the two operands once they are. -/
theorem mismatch_describes_operands :
    let t : Term Int64 := .sequence
      (.assign "x" (.binary .multiply (.number 2) (.sequence .doNothing (.boolean true))))
      .doNothing
    let e : EvalError Int64 := .violation (.operandMismatch .multiply .number .boolean)
    (Machine.start t .empty .default).run? 2 = some (.error e) ∧
      t.Evaluates .empty .unbounded (.error e) ⟨7, none⟩ ∧
      ∃ n s, State.after n ⟨t, .empty⟩ = .ok s ∧ s.step = .error e ∧
        e.Describes s.statement.redex s.environment := by
  intro t e
  have hrun : (Machine.start t .empty .default).run? 2 = some (.error e) := rfl
  have heval : t.Evaluates .empty .unbounded (.error e) ⟨7, none⟩ := ⟨0, rfl⟩
  obtain ⟨-, hmachine, -⟩ := errors_describe_program t .empty
  rcases hmachine .default 2 e hrun with ⟨limit, hlimit, -⟩ | hplace
  · cases hlimit
  · exact ⟨hrun, heval, hplace⟩

end Term

end WhileLang
