/-!
# How a machine is run

The two settings of a machine: how many steps it may take, and how it shows the
states it goes through.
-/

namespace WhileLang

/-- How the states of a run are shown. -/
inductive TraceFormat where
  /-- For human readers: one state to a line. -/
  | text
  /-- For programs: one JSON object to a line. -/
  | json
deriving DecidableEq, Inhabited

structure Config where
  /-- The most steps it may take; without it there is no bound. -/
  stepLimit : Option Nat
  traceFormat : TraceFormat
deriving DecidableEq

namespace Config

/-- No bound, and a trace for human readers. -/
def default : Config := ⟨none, .text⟩

instance : Inhabited Config := ⟨default⟩

end Config

end WhileLang
