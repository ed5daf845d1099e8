import WhileLang.Exchange.State
import WhileLang.Machine.Run
import WhileLang.Sink

/-!
# Traced runs

A traced run writes every state it comes to before it leaves it, so that a run
which fails has shown how far it got. In the format for human readers an empty line
ends the trace of a run that succeeded; in the format for programs each state is a
line of its own and there is nothing else.

The sink may fail at any byte, and then the run ends there, whatever the program
would still have done. What it has taken is known also of a run that is not over
after the steps it was allowed (`runTracedFor`).
-/

namespace WhileLang.Machine

variable {ν : Type} [Arithmetic ν]

/-- The JSON form of a machine's present state and step count. -/
def record (m : Machine ν) : Json :=
  .ofFields
    [("step", .ofInt m.steps), ("statement", .ofString m.state.statement.render),
      ("environment", Exchange.toJson m.state.environment)]

/-- The line that shows the present state. -/
def traceLine (m : Machine ν) : String :=
  match m.config.traceFormat with
  | .text => m.state.render ++ "\n"
  | .json => m.record.write ++ "\n"

/-- What follows the last state of a run that succeeded. -/
def traceEnd (m : Machine ν) : String :=
  match m.config.traceFormat with
  | .text => "\n"
  | .json => ""

/-- Runs a machine for up to so many steps, writing its states to a sink: the sink
afterwards and, if the run is over, the state that it ended in or what ended it. -/
def runTracedFor (fuel : Nat) (m : Machine ν) (sink : Sink) :
    Sink × Option (Except (RunError ν) (State ν)) :=
  match sink.write m.traceLine with
  | (sink, .error cause) => (sink, some (.error (.trace cause)))
  | (sink, .ok ()) =>
      if m.isTerminal then
        match sink.write m.traceEnd with
        | (sink, .error cause) => (sink, some (.error (.trace cause)))
        | (sink, .ok ()) => (sink, some (.ok m.state))
      else
        match fuel with
        | 0 => (sink, none)
        | fuel + 1 =>
            match m.step with
            | (.error e, _) => (sink, some (.error (.eval e)))
            | (.ok (), next) => next.runTracedFor fuel sink

/-- Runs a machine, writing its states to a sink: the sink afterwards, and the state
that the run ends in or what ended it. -/
def runTraced? (fuel : Nat) (m : Machine ν) (sink : Sink) :
    Option (Sink × Except (RunError ν) (State ν)) :=
  let (sink, answer) := m.runTracedFor fuel sink
  answer.map fun answer => (sink, answer)

theorem runTraced?_eq_some_iff {fuel : Nat} {m : Machine ν} {sink last : Sink}
    {answer : Except (RunError ν) (State ν)} :
    m.runTraced? fuel sink = some (last, answer) ↔
      m.runTracedFor fuel sink = (last, some answer) := by
  rw [runTraced?]
  match m.runTracedFor fuel sink with
  | (_, none) => simp
  | (_, some _) => simp

theorem runTraced?_eq_none_iff {fuel : Nat} {m : Machine ν} {sink : Sink} :
    m.runTraced? fuel sink = none ↔ (m.runTracedFor fuel sink).2 = none := by
  rw [runTraced?, Option.map_eq_none_iff]

end WhileLang.Machine
