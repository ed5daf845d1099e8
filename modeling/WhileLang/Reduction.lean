import WhileLang.Settled
import WhileLang.State

/-!
# One step

A step changes a term in one place. The place is found by descending: into the
left operand until it has settled, then into the right one; into an assigned
expression, a condition, the first part of a sequence. A loop is unrolled once
and never entered. The environment is threaded through, since a step anywhere may
be an assignment.

Operands that have settled are asked for their values from left to right, so with
two faulty operands the left one is reported.
-/

namespace WhileLang

variable {ν : Type} [Arithmetic ν]

/-- The state after one step of a term. -/
def Term.reduce : Term ν → Environment ν → Except (EvalError ν) (State ν)
  | number n, _ => .error (number n).irreducible
  | boolean b, _ => .error (boolean b).irreducible
  | doNothing, _ => .error doNothing.irreducible
  | var name, env => do
      let v ← env.lookup name
      return ⟨ofValue v, env⟩
  | binary op left right, env =>
      if left.isReducible then do
        let next ← left.reduce env
        return ⟨binary op next.statement right, next.environment⟩
      else if right.isReducible then do
        let next ← right.reduce env
        return ⟨binary op left next.statement, next.environment⟩
      else do
        let v ← op.apply (← left.operand) (← right.operand)
        return ⟨ofValue v, env⟩
  | assign name expression, env =>
      if expression.isReducible then do
        let next ← expression.reduce env
        return ⟨assign name next.statement, next.environment⟩
      else do
        let v ← expression.operand
        return ⟨doNothing, env.insert name v⟩
  | ifElse condition consequence alternative, env =>
      if condition.isReducible then do
        let next ← condition.reduce env
        return ⟨ifElse next.statement consequence alternative, next.environment⟩
      else do
        return ⟨if ← condition.truth then consequence else alternative, env⟩
  | sequence first second, env =>
      if first.isReducible then do
        let next ← first.reduce env
        return ⟨sequence next.statement second, next.environment⟩
      else do
        first.finished
        return ⟨second, env⟩
  | whileLoop condition body, env =>
      return ⟨ifElse condition (sequence body (whileLoop condition body)) doNothing, env⟩

def State.step (s : State ν) : Except (EvalError ν) (State ν) :=
  s.statement.reduce s.environment

end WhileLang
