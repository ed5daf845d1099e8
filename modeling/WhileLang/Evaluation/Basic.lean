import WhileLang.Evaluation.Gas
import WhileLang.Settled
import WhileLang.State

/-!
# Evaluation in one sweep

A term is evaluated by evaluating its parts, each once and in the environment that
the part before it left, and putting their settled forms together. The result is
the state that a run of single steps ends in.

A loop is where this could fail to end. The recursion on terms leaves it to
`iterate`, which knows the condition and the body only as computations and goes
round at most a given number of times; with that number as a parameter everything
here is total, and a term without loops never looks at it. An evaluation that
answers gives the same answer for every larger number of rounds.
-/

namespace WhileLang

variable {ν : Type} [Arithmetic ν]

/-- Evaluates a condition, and while it holds a body and the condition again; the
body has to end in `do-nothing`. At most `rounds` times the condition is asked. -/
def Metered.iterate (condition body : Environment ν → Metered ν (State ν)) :
    Nat → Environment ν → Metered ν (State ν)
  | 0, _ => unanswered
  | rounds + 1, env => do
      let settled ← condition env
      if ← settled.statement.truth then
        let settled ← body settled.environment
        settled.statement.finished
        iterate condition body rounds settled.environment
      else
        return ⟨.doNothing, settled.environment⟩

/-- Evaluates a term, letting each loop that is entered go round at most `rounds`
times. -/
def Term.eval (rounds : Nat) : Term ν → Environment ν → Metered ν (State ν)
  | number n, env => do
      Metered.tick
      return ⟨number n, env⟩
  | boolean b, env => do
      Metered.tick
      return ⟨boolean b, env⟩
  | doNothing, env => do
      Metered.tick
      return ⟨doNothing, env⟩
  | var name, env => do
      Metered.tick
      let v ← env.lookup name
      return ⟨ofValue v, env⟩
  | binary op left right, env => do
      Metered.tick
      let l ← left.eval rounds env
      let r ← right.eval rounds l.environment
      let v ← op.apply (← l.statement.operand) (← r.statement.operand)
      return ⟨ofValue v, r.environment⟩
  | assign name expression, env => do
      Metered.tick
      let settled ← expression.eval rounds env
      let v ← settled.statement.operand
      return ⟨doNothing, settled.environment.insert name v⟩
  | ifElse condition consequence alternative, env => do
      Metered.tick
      let settled ← condition.eval rounds env
      if ← settled.statement.truth then
        consequence.eval rounds settled.environment
      else
        alternative.eval rounds settled.environment
  | sequence first second, env => do
      Metered.tick
      let settled ← first.eval rounds env
      settled.statement.finished
      second.eval rounds settled.environment
  | whileLoop condition body, env => do
      Metered.tick
      Metered.iterate (condition.eval rounds) (body.eval rounds) rounds env

end WhileLang
