import WhileLang.Evaluation.Basic

/-!
# What an evaluation is for

The same evaluation serves an expression, wanted for its value, and a statement,
wanted for the environment it leaves. `evaluate` lets the program decide: a term that
settles to a value yields it, any other the environment.

The readings that end in a question mark run on a meter of their own that never
runs out; a result of `none` says that more rounds are needed to tell.
-/

namespace WhileLang

variable {ν : Type}

/-- What a term yields: a value, or else what it did to the environment. -/
inductive Outcome (ν : Type) where
  | value (v : Value ν)
  | environment (env : Environment ν)
deriving DecidableEq

def State.outcome (s : State ν) : Outcome ν :=
  match s.statement.value? with
  | some v => .value v
  | none => .environment s.environment

namespace State

@[simp]
theorem outcome_ofValue (v : Value ν) (env : Environment ν) :
    (⟨.ofValue v, env⟩ : State ν).outcome = .value v := by
  rw [outcome, Term.value?_ofValue]

@[simp]
theorem outcome_doNothing (env : Environment ν) :
    (⟨.doNothing, env⟩ : State ν).outcome = .environment env := rfl

end State

namespace Term

variable [Arithmetic ν]

def evaluate (rounds : Nat) (t : Term ν) (env : Environment ν) : Metered ν (Outcome ν) := do
  return (← t.eval rounds env).outcome

/-- What a term yields is seen from the state that its evaluation ends in. -/
theorem on_evaluate (rounds : Nat) (t : Term ν) (env : Environment ν) (m : Meter) :
    (t.evaluate rounds env).on m =
      ((t.eval rounds env).on m).map fun r => (r.1.map State.outcome, r.2) := by
  rw [evaluate, Metered.on_bind]
  match (t.eval rounds env).on m with
  | none => rfl
  | some (.error e, m') => rfl
  | some (.ok s, m') => rfl

/-- The state that evaluation ends in. -/
def normalForm? (rounds : Nat) (t : Term ν) (env : Environment ν) :
    Option (Except (EvalError ν) (State ν)) :=
  ((t.eval rounds env).on .unbounded).map Prod.fst

def evaluate? (rounds : Nat) (t : Term ν) (env : Environment ν) :
    Option (Except (EvalError ν) (Outcome ν)) :=
  ((t.evaluate rounds env).on .unbounded).map Prod.fst

theorem evaluate?_eq (rounds : Nat) (t : Term ν) (env : Environment ν) :
    t.evaluate? rounds env =
      (t.normalForm? rounds env).map fun answer => answer.map State.outcome := by
  rw [evaluate?, normalForm?, on_evaluate, Option.map_map, Option.map_map]
  rfl

/-- The value of an expression. -/
def evaluateExpression? (rounds : Nat) (t : Term ν) (env : Environment ν) :
    Option (Except (EvalError ν) (Value ν)) :=
  (t.normalForm? rounds env).map fun answer => do (← answer).statement.operand

/-- An expression is a term that settles to a value. -/
theorem evaluateExpression?_eq_ok_iff {rounds : Nat} {t : Term ν} {env : Environment ν}
    {v : Value ν} :
    t.evaluateExpression? rounds env = some (.ok v) ↔
      ∃ env', t.normalForm? rounds env = some (.ok ⟨ofValue v, env'⟩) := by
  rw [evaluateExpression?]
  constructor
  · intro h
    match hn : t.normalForm? rounds env with
    | none =>
        rw [hn] at h
        cases h
    | some (.error e) =>
        rw [hn] at h
        cases h
    | some (.ok ⟨statement, env'⟩) =>
        rw [hn, Option.map_some] at h
        obtain rfl := operand_eq_ok_iff.mp (Option.some.inj h)
        exact ⟨env', rfl⟩
  · rintro ⟨env', h⟩
    rw [h, Option.map_some]
    exact congrArg some (operand_eq_ok_iff.mpr rfl)

/-- The environment that a statement leaves. -/
def execute? (rounds : Nat) (t : Term ν) (env : Environment ν) :
    Option (Except (EvalError ν) (Environment ν)) :=
  (t.normalForm? rounds env).map fun answer => answer.map State.environment

end Term

end WhileLang
