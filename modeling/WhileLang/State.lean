import WhileLang.Environment.Basic
import WhileLang.Term

/-!
# States

What a run is in at any moment: the statement still to be run, and the environment
to run it in. A run is over when its statement is settled.
-/

namespace WhileLang

structure State (ν : Type) where
  statement : Term ν
  environment : Environment ν
deriving DecidableEq

namespace State

variable {ν : Type}

def isTerminal (s : State ν) : Bool :=
  !s.statement.isReducible

/-- The statement and the bindings for human readers. -/
def render [Arithmetic ν] (s : State ν) : String :=
  s.statement.render ++ ", " ++ s.environment.render

end State

end WhileLang
