import WhileLang.Name
import WhileLang.Value

/-!
# What can go wrong

A run ends early for one of three reasons: the program is malformed (it reads an
unbound name, or puts something where it cannot stand), its numbers leave their
range, or an allowance that the caller set is spent. Each constructor is one
cause and carries what a reader needs to find it. The wording of all messages is
here and nowhere else.
-/

namespace WhileLang

/-- A term stands where what it settled to is not allowed. -/
inductive Violation where
  /-- A settled term was asked for another step. -/
  | irreducible (term : String)
  /-- An operator met operands that are not both numbers. -/
  | operandMismatch (op : Operator) (left right : Kind)
  /-- A condition settled to something other than a truth value. -/
  | nonBooleanCondition (found : String)
  /-- A place that needs a value met a statement. -/
  | statementAsValue (term : String)
deriving DecidableEq

/-- The cause why a program has no result. -/
inductive EvalError (ν : Type) where
  | unboundVariable (name : Name)
  | violation (cause : Violation)
  | arithmeticOverflow (op : Operator) (left right : ν)
  | stepLimitExceeded (limit : Nat)
  | gasExhausted
deriving DecidableEq, Inhabited

/-- The cause why a traced run has no result: the program's own error, or that of
the sink its trace is written to. -/
inductive RunError (ν : Type) where
  | eval (error : EvalError ν)
  | trace (cause : String)
deriving DecidableEq, Inhabited

def Violation.message : Violation → String
  | irreducible term => "cannot reduce irreducible node `" ++ term ++ "`"
  | operandMismatch op left right =>
      "operator `" ++ op.symbol ++ "` does not apply to " ++ left.word ++ " and " ++ right.word
  | nonBooleanCondition found => "condition must be a boolean, found `" ++ found ++ "`"
  | statementAsValue term => "statement `" ++ term ++ "` used where a value is required"

def EvalError.message {ν : Type} [Arithmetic ν] : EvalError ν → String
  | unboundVariable name => "unbound variable: " ++ name
  | violation cause => "precondition violation: " ++ cause.message
  | arithmeticOverflow op left right =>
      "arithmetic overflow: " ++ (Value.number left).render ++ " " ++ op.symbol ++ " " ++
        (Value.number right).render
  | stepLimitExceeded limit => "step limit of " ++ toString limit ++ " exceeded"
  | gasExhausted => "gas exhausted"

def RunError.message {ν : Type} [Arithmetic ν] : RunError ν → String
  | eval error => error.message
  | trace cause => "failed to write trace: " ++ cause

end WhileLang
