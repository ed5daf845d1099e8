import WhileLang.Machine.Basic

/-!
# Running to the end

A run goes on until its state is terminal or a step fails. Whether it ever stops
depends on the program, so each way of running takes the number of steps it may
try and answers `none` if that was not enough; every larger number gives the same
answer as one that sufficed.

`run?` looks at the end only, `trace?` collects every state on the way there.
-/

namespace WhileLang.Machine

variable {ν : Type} [Arithmetic ν]

/-- The state that a run ends in, or the error that ends it. -/
def run? (fuel : Nat) (m : Machine ν) : Option (Except (EvalError ν) (State ν)) :=
  if m.isTerminal then
    some (.ok m.state)
  else
    match fuel with
    | 0 => none
    | fuel + 1 =>
        match m.step with
        | (.error e, _) => some (.error e)
        | (.ok (), next) => next.run? fuel

/-- All states of a run from the present one to the last, or the error that ends
it. -/
def trace? (fuel : Nat) (m : Machine ν) : Option (Except (EvalError ν) (List (State ν))) :=
  if m.isTerminal then
    some (.ok [m.state])
  else
    match fuel with
    | 0 => none
    | fuel + 1 =>
        match m.step with
        | (.error e, _) => some (.error e)
        | (.ok (), next) => (next.trace? fuel).map fun answer => answer.map (m.state :: ·)

end WhileLang.Machine
