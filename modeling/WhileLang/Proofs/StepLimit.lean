import WhileLang.Proofs.Story

/-!
# The step limit is exact, and otherwise transparent

A machine is at one of three places. It may be at a terminal state, where nothing
else is asked; it may have spent its limit, where the next step is refused whatever
it would have been; and otherwise the next step is that of the state. So a limit is
felt only by a run that is still live when the limit is spent, where live means not
terminal: it need not have a next state. This is why the bound is inclusive for a run
that finishes and strict for one that fails. The first has to be terminal when the
limit is spent, the second has to fail before.

All the cases have one shape. From a state that is some steps ahead, with the limit
not passed on the way, the machine tells a story that ends there, if it stops there
(`exists_story_within`). What is left for each is to say why it stops.
-/

namespace WhileLang

variable {ν : Type} [Arithmetic ν]

namespace State

/-- The run is not over after `n` steps, though it may be about to fail. -/
def Live (s : State ν) (n : Nat) : Prop :=
  ∃ t, after n s = .ok t ∧ t.isTerminal = false

theorem not_terminal_of_not_halts {s : State ν} (h : ¬ s.Halts 0 (.ok s)) :
    s.isTerminal = false := by
  cases ht : s.isTerminal with
  | false => rfl
  | true => exact absurd ⟨s, rfl, ht, rfl⟩ h

/-- A run that has not ended before is live. -/
theorem live_of_not_halts {s : State ν} {n : Nat} (hok : ∀ i t, i ≤ n → ¬ s.Halts i (.ok t))
    (herror : ∀ i e, i < n → ¬ s.Halts i (.error e)) : s.Live n := by
  induction n generalizing s with
  | zero => exact ⟨s, rfl, not_terminal_of_not_halts (hok 0 s (Nat.le_refl 0))⟩
  | succ n ih =>
      have hs := not_terminal_of_not_halts (hok 0 s (Nat.zero_le _))
      cases hstep : s.step with
      | error e => exact absurd ⟨s, rfl, hs, hstep⟩ (herror 0 e (Nat.succ_pos n))
      | ok next =>
          have hnext : next.Live n := by
            refine ih (fun i t hi h => ?_) (fun i e hi h => ?_)
            · exact hok (i + 1) t (by omega) (halts_succ.mpr ⟨next, hstep, h⟩)
            · exact herror (i + 1) e (by omega) (halts_succ.mpr ⟨next, hstep, h⟩)
          obtain ⟨t, ht, hlive⟩ := hnext
          exact ⟨t, after_succ_eq_ok_iff.mpr ⟨next, hstep, ht⟩, hlive⟩

theorem Halts.live_of_lt {s : State ν} {n k : Nat} {answer : Except (EvalError ν) (State ν)}
    (h : s.Halts k answer) (hlt : n < k) : s.Live n := by
  refine live_of_not_halts (fun i t hi ht => ?_) (fun i e hi he => ?_)
  · have hik := (h.unique ht).1
    omega
  · have hik := (h.unique he).1
    omega

/-- A run that is about to fail is live, too. -/
theorem Halts.live_of_error {s : State ν} {n k : Nat} {e : EvalError ν}
    (h : s.Halts k (.error e)) (hle : n ≤ k) : s.Live n := by
  refine live_of_not_halts (fun i t hi ht => ?_) (fun i e hi he => ?_)
  · cases (h.unique ht).2
  · have hik := (h.unique he).1
    omega

end State

namespace Machine

/-- A limit that allows all the steps to a state is in the way of none of them. -/
theorem exists_story_within {m : Machine ν} {k : Nat} {s : State ν}
    {answer : Except (EvalError ν) (State ν)} (hafter : State.after k m.state = .ok s)
    (hroom : ∀ limit, m.config.stepLimit = some limit → m.steps + k ≤ limit)
    (hstops : Stops { m with state := s, steps := m.steps + k } answer) :
    ∃ states, m.Story states answer := by
  have hroom' : ∀ i < k, ∀ limit, m.config.stepLimit = some limit → m.steps + i < limit := by
    intro i hi limit hlimit
    have hle := hroom limit hlimit
    omega
  obtain ⟨states, -, hstory⟩ := exists_story_of_after hafter hroom' hstops
  exact ⟨states, hstory⟩

theorem exists_story_of_halts_ok {m : Machine ν} {k : Nat} {s : State ν}
    (h : m.state.Halts k (.ok s))
    (hroom : ∀ limit, m.config.stepLimit = some limit → m.steps + k ≤ limit) :
    ∃ states, m.Story states (.ok s) := by
  obtain ⟨hafter, ht⟩ := State.halts_ok_iff.mp h
  exact exists_story_within hafter hroom ⟨ht, rfl⟩

theorem exists_story_of_halts_error {m : Machine ν} {k : Nat} {e : EvalError ν}
    (h : m.state.Halts k (.error e))
    (hroom : ∀ limit, m.config.stepLimit = some limit → m.steps + k < limit) :
    ∃ states, m.Story states (.error e) := by
  obtain ⟨t, hafter, ht, hstep⟩ := h
  refine exists_story_within hafter (fun limit hlimit => Nat.le_of_lt (hroom limit hlimit)) ?_
  have hfails := step_of_room (m := { m with state := t, steps := m.steps + k }) ht
    (spentLimit?_eq_none_iff.mpr hroom)
  rw [hstep] at hfails
  exact ⟨ht, hfails⟩

theorem exists_story_of_halts {m : Machine ν} {k : Nat}
    {answer : Except (EvalError ν) (State ν)} (h : m.state.Halts k answer)
    (hroom : ∀ limit, m.config.stepLimit = some limit → m.steps + k < limit) :
    ∃ states, m.Story states answer := by
  cases answer with
  | ok s => exact exists_story_of_halts_ok h fun limit hl => Nat.le_of_lt (hroom limit hl)
  | error e => exact exists_story_of_halts_error h hroom

/-- Unless the limit stops it, a machine stops as the run of its state halts. -/
theorem Story.halts {m : Machine ν} {states : List (State ν)}
    {answer : Except (EvalError ν) (State ν)} (h : m.Story states answer) :
    (∃ limit, m.config.stepLimit = some limit ∧ answer = .error (.stepLimitExceeded limit)) ∨
      ∃ k, m.state.Halts k answer := by
  induction h with
  | @stops m answer h =>
      cases answer with
      | ok s => exact .inr ⟨0, State.halts_zero.mpr h⟩
      | error e =>
          rcases step_eq_error h.1 h.2 with ⟨limit, hspent, rfl⟩ | ⟨-, hstep⟩
          · exact .inl ⟨limit, (spentLimit?_eq_some_iff.mp hspent).1, rfl⟩
          · exact .inr ⟨0, State.halts_zero.mpr ⟨h.1, hstep⟩⟩
  | steps hs _ ih =>
      obtain ⟨-, s, hstep, rfl⟩ := step_eq_ok_iff.mp hs
      rcases ih with hlimit | ⟨k, hk⟩
      · exact .inl hlimit
      · exact .inr ⟨k + 1, State.halts_succ.mpr ⟨s, hstep, hk⟩⟩

theorem halts_of_run? {m : Machine ν} {fuel : Nat} {answer : Except (EvalError ν) (State ν)}
    (h : m.run? fuel = some answer) :
    (∃ limit, m.config.stepLimit = some limit ∧ answer = .error (.stepLimitExceeded limit)) ∨
      ∃ k, m.state.Halts k answer := by
  obtain ⟨states, hstory⟩ := exists_story h
  exact hstory.halts

/-- The machines that calls of `step` lead to from the start of a program, whether the
calls succeed or not. -/
inductive Reached (config : Config) : Machine ν → Prop where
  | start (t : Term ν) (env : Environment ν) : Reached config (.start t env config)
  | step {m : Machine ν} : Reached config m → Reached config m.step.2

theorem step_keeps_limit {m : Machine ν} {limit : Nat} (hlimit : m.config.stepLimit = some limit)
    (hle : m.steps ≤ limit) :
    m.step.2.config = m.config ∧ m.step.2.steps ≤ limit := by
  match hs : m.step with
  | (.ok (), next) =>
      obtain ⟨hspent, s, -, rfl⟩ := step_eq_ok_iff.mp hs
      exact ⟨rfl, spentLimit?_eq_none_iff.mp hspent limit hlimit⟩
  | (.error e, last) =>
      obtain rfl := step_of_error hs
      exact ⟨rfl, hle⟩

theorem Reached.steps_le {m : Machine ν} {limit : Nat} {format : TraceFormat}
    (h : Reached ⟨some limit, format⟩ m) :
    m.config = ⟨some limit, format⟩ ∧ m.steps ≤ limit := by
  induction h with
  | start t env => exact ⟨rfl, Nat.zero_le limit⟩
  | @step m _ ih =>
      obtain ⟨hconfig, hle⟩ := ih
      have hkeeps := step_keeps_limit (congrArg Config.stepLimit hconfig) hle
      exact ⟨hkeeps.1.trans hconfig, hkeeps.2⟩

/-- Every way of running the machine comes to this answer. -/
structure Returns (m : Machine ν) (answer : Except (EvalError ν) (State ν)) : Prop where
  silent : ∃ fuel, m.run? fuel = some answer
  traced : ∀ written, ∃ fuel text,
    m.runTraced? fuel ⟨written, none⟩ = some (⟨text, none⟩, answer.mapError .eval)
  collected : ∃ fuel states, m.trace? fuel = some (answer.map fun _ => states)

theorem Story.returns {m : Machine ν} {states : List (State ν)}
    {answer : Except (EvalError ν) (State ν)} (h : m.Story states answer) : m.Returns answer :=
  ⟨⟨_, h.run?⟩, fun written => ⟨_, _, h.runTraced? written⟩, ⟨_, states, h.trace?⟩⟩

/-! ## Under a limit

What the machine returns, in each of the three ways the run of its state can go. -/

section Limited

variable {m : Machine ν} {limit k : Nat} (hlimit : m.config.stepLimit = some limit)
  (hle : m.steps ≤ limit)

include hlimit hle

theorem returns_of_live (h : m.state.Live (limit - m.steps)) :
    m.Returns (.error (.stepLimitExceeded limit)) := by
  obtain ⟨t, hafter, ht⟩ := h
  have hsum : m.steps + (limit - m.steps) = limit := by omega
  have hstops : Stops { m with state := t, steps := m.steps + (limit - m.steps) }
      (.error (.stepLimitExceeded limit)) :=
    ⟨ht, step_of_spent ht (spentLimit?_eq_some_iff.mpr ⟨hlimit, Nat.le_of_eq hsum.symm⟩)⟩
  obtain ⟨states, hstory⟩ := exists_story_within hafter (fun l hl => by
    cases hlimit.symm.trans hl
    exact Nat.le_of_eq hsum) hstops
  exact hstory.returns

theorem returns_of_halts_ok {s : State ν} (h : m.state.Halts k (.ok s)) :
    m.Returns (if m.steps + k ≤ limit then .ok s else .error (.stepLimitExceeded limit)) := by
  split
  · next hin =>
    obtain ⟨states, hstory⟩ := exists_story_of_halts_ok h fun l hl => by
      cases hlimit.symm.trans hl
      exact hin
    exact hstory.returns
  · next hout =>
    exact returns_of_live hlimit hle (h.live_of_lt (by omega))

theorem returns_of_halts_error {e : EvalError ν} (h : m.state.Halts k (.error e)) :
    m.Returns (.error (if m.steps + k < limit then e else .stepLimitExceeded limit)) := by
  split
  · next hin =>
    obtain ⟨states, hstory⟩ := exists_story_of_halts_error h fun l hl => by
      cases hlimit.symm.trans hl
      exact hin
    exact hstory.returns
  · next hout =>
    exact returns_of_live hlimit hle (h.live_of_error (by omega))

theorem returns_of_not_halts (h : ∀ k answer, ¬ m.state.Halts k answer) :
    m.Returns (.error (.stepLimitExceeded limit)) := by
  refine returns_of_live hlimit hle (State.live_of_not_halts ?_ ?_)
  · intro i t _
    exact h i (.ok t)
  · intro i e _
    exact h i (.error e)

theorem exists_returns : ∃ answer, m.Returns answer := by
  by_cases hends : ∃ k answer, m.state.Halts k answer
  · obtain ⟨k, answer, hk⟩ := hends
    cases answer with
    | ok s => exact ⟨_, returns_of_halts_ok hlimit hle hk⟩
    | error e => exact ⟨_, returns_of_halts_error hlimit hle hk⟩
  · have hno : ∀ k answer, ¬ m.state.Halts k answer := fun k answer hk => hends ⟨k, answer, hk⟩
    exact ⟨_, returns_of_not_halts hlimit hle hno⟩

end Limited

/-- A machine under a step limit never counts past it, and always comes to an answer.
If the run of its state finishes, that is the answer if the limit allows all the steps
up to there; if it fails, that is the answer if the limit allows one step more; and
otherwise, and if the run goes on for ever, the answer is that the limit was exceeded. -/
theorem returns_under_stepLimit {m : Machine ν} {limit : Nat} {format : TraceFormat}
    (h : Reached ⟨some limit, format⟩ m) :
    m.steps ≤ limit ∧
    (∃ answer, m.Returns answer) ∧
    (∀ k s, m.state.Halts k (.ok s) →
      m.Returns (if m.steps + k ≤ limit then .ok s else .error (.stepLimitExceeded limit))) ∧
    (∀ k e, m.state.Halts k (.error e) →
      m.Returns (.error (if m.steps + k < limit then e else .stepLimitExceeded limit))) ∧
    ((∀ k answer, ¬ m.state.Halts k answer) →
      m.Returns (.error (.stepLimitExceeded limit))) := by
  obtain ⟨hconfig, hle⟩ := h.steps_le
  have hlimit : m.config.stepLimit = some limit := congrArg Config.stepLimit hconfig
  refine ⟨hle, exists_returns hlimit hle, ?_, ?_, returns_of_not_halts hlimit hle⟩
  · intro k s hk
    exact returns_of_halts_ok hlimit hle hk
  · intro k e hk
    exact returns_of_halts_error hlimit hle hk

/-- After one step by hand and one more, this program misses the value of `y`. A limit of
three leaves room for the step that fails, and a limit of two does not. A program that is
at its end when the limit is spent has all the room it needs. -/
theorem returns_after_step_by_hand :
    let t : Term Int64 := .sequence (.assign "x" (.number 7)) (.var "y")
    let m : Nat → Machine Int64 := fun limit => (start t .empty ⟨some limit, .text⟩).step.2
    let ending : Machine Int64 := (start (.assign "x" (.number 7)) .empty ⟨some 1, .text⟩).step.2
    (Reached ⟨some 3, .text⟩ (m 3) ∧ (m 3).steps = 1 ∧
      (m 3).Returns (.error (.unboundVariable "y"))) ∧
    (Reached ⟨some 2, .text⟩ (m 2) ∧ (m 2).steps = 1 ∧
      (m 2).Returns (.error (.stepLimitExceeded 2))) ∧
    Reached ⟨some 1, .text⟩ ending ∧ ending.steps = 1 ∧
      ending.Returns (.ok ⟨.doNothing, Environment.empty.insert "x" (.number 7)⟩) := by
  intro t m ending
  have hreached : ∀ limit, Reached ⟨some limit, .text⟩ (m limit) :=
    fun limit => .step (.start t .empty)
  have hthree : (m 3).state.Halts 1 (.error (.unboundVariable "y")) := ⟨_, rfl, rfl, rfl⟩
  have htwo : (m 2).state.Halts 1 (.error (.unboundVariable "y")) := ⟨_, rfl, rfl, rfl⟩
  have hending : Reached ⟨some 1, .text⟩ ending := .step (.start _ _)
  have hends : ending.state.Halts 0
      (.ok ⟨.doNothing, Environment.empty.insert "x" (.number 7)⟩) := ⟨_, rfl, rfl, rfl⟩
  obtain ⟨-, -, -, hstrict, -⟩ := returns_under_stepLimit (hreached 3)
  obtain ⟨-, -, -, hspent, -⟩ := returns_under_stepLimit (hreached 2)
  obtain ⟨-, -, hinclusive, -⟩ := returns_under_stepLimit hending
  exact ⟨⟨hreached 3, rfl, hstrict 1 _ hthree⟩, ⟨hreached 2, rfl, hspent 1 _ htwo⟩,
    hending, rfl, hinclusive 0 _ hends⟩

end Machine

end WhileLang
