import WhileLang.Machine.Config
import WhileLang.Reduction

/-!
# The machine

A machine holds the state of a run and counts the steps that led to it. Work on a
machine changes it, and work that fails leaves it where it had got to. A step has
every reason to fail behind it before it changes anything: so a step that fails
leaves the machine as it was (`step_of_error`), and can be asked for again.

Two things besides the program's own errors stop a machine: it refuses to step from
a terminal state, and it refuses to take more steps than its limit. The first is
checked first; a run that ends within the limit never hears of it.
-/

namespace WhileLang

/-- A run in progress. -/
structure Machine (ν : Type) where
  state : State ν
  steps : Nat
  config : Config
deriving DecidableEq

namespace Machine

variable {ν : Type}

def start (statement : Term ν) (env : Environment ν) (config : Config) : Machine ν :=
  ⟨⟨statement, env⟩, 0, config⟩

def isTerminal (m : Machine ν) : Bool :=
  m.state.isTerminal

/-- Whether the step limit is spent; if so, the limit. -/
def spentLimit? (m : Machine ν) : Option Nat :=
  m.config.stepLimit.filter fun limit => decide (limit ≤ m.steps)

theorem spentLimit?_eq_some_iff {m : Machine ν} {limit : Nat} :
    m.spentLimit? = some limit ↔ m.config.stepLimit = some limit ∧ limit ≤ m.steps := by
  rw [spentLimit?, Option.filter_eq_some_iff, decide_eq_true_iff]

theorem spentLimit?_eq_none_iff {m : Machine ν} :
    m.spentLimit? = none ↔ ∀ limit, m.config.stepLimit = some limit → m.steps < limit := by
  rw [Option.eq_none_iff_forall_ne_some]
  refine ⟨fun h limit hlimit => ?_, fun h limit hspent => ?_⟩
  · have hne := h limit
    rw [Ne, spentLimit?_eq_some_iff] at hne
    exact Nat.lt_of_not_le fun hle => hne ⟨hlimit, hle⟩
  · obtain ⟨hlimit, hle⟩ := spentLimit?_eq_some_iff.mp hspent
    have hlt := h limit hlimit
    omega

/-- Work on a machine, which may fail. There is a machine afterwards in either case. -/
abbrev Work (ν α : Type) : Type :=
  ExceptT (EvalError ν) (StateM (Machine ν)) α

variable [Arithmetic ν]

/-- The work of one step. -/
def advance : Work ν Unit := do
  let m ← get
  if m.isTerminal then
    throw m.state.statement.irreducible
  if let some limit := m.spentLimit? then
    throw (.stepLimitExceeded limit)
  let state ← m.state.step
  set { m with state, steps := m.steps + 1 }

/-- Takes a step: whether that succeeded, and the machine afterwards. -/
def step (m : Machine ν) : Except (EvalError ν) Unit × Machine ν :=
  (ExceptT.run advance).run m

/-- What stands in the way of a step is looked for in this order. -/
theorem step_eq (m : Machine ν) :
    m.step =
      if m.isTerminal then (.error m.state.statement.irreducible, m)
      else
        match m.spentLimit? with
        | some limit => (.error (.stepLimitExceeded limit), m)
        | none =>
            match m.state.step with
            | .error e => (.error e, m)
            | .ok state => (.ok (), { m with state, steps := m.steps + 1 }) := by
  show StateT.run (ExceptT.run (if m.isTerminal then _ else _)) m = _
  split
  · rfl
  · cases m.spentLimit? with
    | some limit => rfl
    | none => cases m.state.step <;> rfl

theorem step_of_terminal {m : Machine ν} (ht : m.isTerminal = true) :
    m.step = (.error m.state.statement.irreducible, m) := by
  rw [step_eq, if_pos ht]

theorem step_of_spent {m : Machine ν} {limit : Nat} (ht : m.isTerminal = false)
    (hspent : m.spentLimit? = some limit) : m.step = (.error (.stepLimitExceeded limit), m) := by
  rw [step_eq, ht, hspent]
  rfl

theorem step_of_room {m : Machine ν} (ht : m.isTerminal = false) (hspent : m.spentLimit? = none) :
    m.step =
      match m.state.step with
      | .error e => (.error e, m)
      | .ok state => (.ok (), { m with state, steps := m.steps + 1 }) := by
  rw [step_eq, ht, hspent]
  rfl

/-- A step that fails leaves the machine as it was. -/
theorem step_of_error {m last : Machine ν} {e : EvalError ν} (h : m.step = (.error e, last)) :
    last = m := by
  rw [step_eq] at h
  split at h
  · cases h
    rfl
  · split at h
    · cases h
      rfl
    · split at h <;> cases h
      rfl

/-- Takes up to so many steps and stops at the first that fails: the machine it got
to, and what stopped it. -/
def stepUpTo : Nat → Machine ν → Machine ν × Option (EvalError ν)
  | 0, m => (m, none)
  | n + 1, m =>
      match m.step with
      | (.error e, m) => (m, some e)
      | (.ok (), m) => stepUpTo n m

end Machine

end WhileLang
