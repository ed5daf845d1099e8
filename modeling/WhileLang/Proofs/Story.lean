import WhileLang.Machine.Stable
import WhileLang.Proofs.Halting

/-!
# The story of a machine

There are three ways to run a machine to its end, and each asks its questions in an
order of its own: whether the run is over, what the next state is, what to keep or
write of the present one. That they cannot tell different stories is not visible
from any of them, so the story is told once here, apart from all three. It is the
list of the states from the present one to the last, together with what stops the
machine in the last: it is terminal, or the step from there fails. Whether there is one
depends on the pure step and on the limit alone (`exists_story_of_after`).

A story is as long as the run, and in each way of running one unit of fuel is one
step. So every way is read along the story by induction, and the fuel that suffices
for all three is its length. The bytes of a traced run are the story written out in
one of the two formats. That text depends on where the step count starts and on
whether the last state is terminal, and on nothing else of the machine; it is the
reason why `transcript` takes its lines from the states and not from machines.
-/

namespace WhileLang

theorem Sink.write_of_no_capacity (written : ByteArray) (text : String) :
    (Sink.mk written none).write text = (⟨written ++ text.toUTF8, none⟩, .ok ()) :=
  rfl

theorem utf8_append (a b : String) : (a ++ b).toUTF8 = a.toUTF8 ++ b.toUTF8 := by
  rw [String.toUTF8_eq_toByteArray, String.toUTF8_eq_toByteArray, String.toUTF8_eq_toByteArray,
    String.toByteArray_append]

namespace Machine

variable {ν : Type}

variable [Arithmetic ν]

/-- Everything a step that succeeds can do. -/
theorem step_eq_ok_iff {m next : Machine ν} :
    m.step = (.ok (), next) ↔ m.spentLimit? = none ∧ ∃ s, m.state.step = .ok s ∧
      next = { m with state := s, steps := m.steps + 1 } := by
  refine ⟨fun h => ?_, fun h => ?_⟩
  · rw [step_eq] at h
    split at h
    · cases h
    · split at h
      · cases h
      · next hspent =>
        refine ⟨hspent, ?_⟩
        split at h
        · cases h
        · next s hs =>
          cases h
          exact ⟨s, hs, rfl⟩
  · obtain ⟨hspent, s, hs, rfl⟩ := h
    rw [step_of_room (State.not_terminal_of_step hs) hspent, hs]

/-- Everything a step that fails short of the end can do. -/
theorem step_eq_error {m last : Machine ν} {e : EvalError ν} (ht : m.isTerminal = false)
    (h : m.step = (.error e, last)) :
    (∃ limit, m.spentLimit? = some limit ∧ e = .stepLimitExceeded limit) ∨
      (m.spentLimit? = none ∧ m.state.step = .error e) := by
  cases hspent : m.spentLimit? with
  | some limit =>
      rw [step_of_spent ht hspent] at h
      cases h
      exact .inl ⟨limit, rfl, rfl⟩
  | none =>
      rw [step_of_room ht hspent] at h
      cases hs : m.state.step with
      | error e' =>
          rw [hs] at h
          cases h
          exact .inr ⟨rfl, rfl⟩
      | ok s =>
          rw [hs] at h
          cases h

theorem not_terminal_of_step {m next : Machine ν} (h : m.step = (.ok (), next)) :
    m.isTerminal = false := by
  obtain ⟨-, s, hs, -⟩ := step_eq_ok_iff.mp h
  exact State.not_terminal_of_step hs

/-- A machine stops where it is, and with what: its state is terminal and the
result, or its state is not and the next step fails, which leaves the machine there. -/
def Stops (m : Machine ν) : Except (EvalError ν) (State ν) → Prop
  | .ok s => m.isTerminal = true ∧ s = m.state
  | .error e => m.isTerminal = false ∧ m.step = (.error e, m)

/-- The states that a machine goes through, from the present one to the last, and
what it stops with there. -/
inductive Story : Machine ν → List (State ν) → Except (EvalError ν) (State ν) → Prop where
  | stops {m : Machine ν} {answer : Except (EvalError ν) (State ν)} :
      m.Stops answer → Story m [m.state] answer
  | steps {m next : Machine ν} {states : List (State ν)}
      {answer : Except (EvalError ν) (State ν)} :
      m.step = (.ok (), next) → Story next states answer → Story m (m.state :: states) answer

/-- Either the run stops, or whatever the fuel, no way of running sees its end. -/
theorem exists_story_or_unfinished (fuel : Nat) (m : Machine ν) :
    (∃ states answer, m.Story states answer) ∨
      (m.run? fuel = none ∧ m.trace? fuel = none ∧
        ∀ written, (m.runTracedFor fuel ⟨written, none⟩).2 = none) := by
  induction fuel generalizing m with
  | zero =>
      cases ht : m.isTerminal with
      | true => exact .inl ⟨_, .ok m.state, .stops ⟨ht, rfl⟩⟩
      | false =>
          refine .inr ⟨?_, ?_, fun written => ?_⟩
          · rw [run?.eq_def, ht]
            rfl
          · rw [trace?.eq_def, ht]
            rfl
          · rw [runTracedFor.eq_def, Sink.write_of_no_capacity, ht]
            rfl
  | succ fuel ih =>
      cases ht : m.isTerminal with
      | true => exact .inl ⟨_, .ok m.state, .stops ⟨ht, rfl⟩⟩
      | false =>
          rcases hs : m.step with ⟨e | ⟨⟩, next⟩
          · obtain rfl := step_of_error hs
            exact .inl ⟨_, .error e, .stops ⟨ht, hs⟩⟩
          · rcases ih next with ⟨states, answer, hstory⟩ | ⟨hrun, htrace, htraced⟩
            · exact .inl ⟨_, answer, .steps hs hstory⟩
            · refine .inr ⟨?_, ?_, fun written => ?_⟩
              · rw [run?.eq_def, ht, hs]
                exact hrun
              · rw [trace?.eq_def, ht, hs]
                exact congrArg (Option.map _) htrace
              · rw [runTracedFor.eq_def, Sink.write_of_no_capacity, ht, hs]
                exact htraced _

/-- If the limit lets the machine take the steps to a state, and the machine stops there,
then that is how its story ends. -/
theorem exists_story_of_after {m : Machine ν} {k : Nat} {s : State ν}
    {answer : Except (EvalError ν) (State ν)} (hafter : State.after k m.state = .ok s)
    (hroom : ∀ i < k, ∀ limit, m.config.stepLimit = some limit → m.steps + i < limit)
    (hstops : Stops { m with state := s, steps := m.steps + k } answer) :
    ∃ states, states.length = k + 1 ∧ m.Story states answer := by
  induction k generalizing m with
  | zero =>
      cases hafter
      exact ⟨_, rfl, .stops hstops⟩
  | succ k ih =>
      obtain ⟨t, ht, hafter⟩ := State.after_succ_eq_ok_iff.mp hafter
      have hspent : m.spentLimit? = none :=
        spentLimit?_eq_none_iff.mpr (hroom 0 (Nat.succ_pos k))
      have hsum : ∀ i, m.steps + 1 + i = m.steps + (i + 1) := fun i => by omega
      have hroom' : ∀ i < k, ∀ limit, m.config.stepLimit = some limit →
          m.steps + 1 + i < limit := by
        intro i hi limit hlimit
        rw [hsum]
        exact hroom (i + 1) (by omega) limit hlimit
      rw [← hsum] at hstops
      obtain ⟨states, hlength, hstory⟩ :=
        ih (m := { m with state := t, steps := m.steps + 1 }) hafter hroom' hstops
      exact ⟨m.state :: states, by rw [List.length_cons, hlength],
        .steps (step_eq_ok_iff.mpr ⟨hspent, t, ht, rfl⟩) hstory⟩

/-- The states of a story are those that the pure step goes through, and the
machine's own steps keep up with them. -/
theorem Story.state_at {m : Machine ν} {states : List (State ν)}
    {answer : Except (EvalError ν) (State ν)} (h : m.Story states answer) (i : Nat)
    (hi : i < states.length) :
    State.after i m.state = .ok states[i] ∧
      m.stepUpTo i = ({ m with state := states[i], steps := m.steps + i }, none) := by
  induction h generalizing i with
  | stops _ =>
      obtain rfl : i = 0 := Nat.lt_one_iff.mp hi
      exact ⟨rfl, rfl⟩
  | @steps m next states answer hs _ ih =>
      cases i with
      | zero => exact ⟨rfl, rfl⟩
      | succ i =>
          obtain ⟨hafter, hup⟩ := ih i (Nat.lt_of_succ_lt_succ hi)
          rw [stepUpTo, hs]
          obtain ⟨-, s, hstep, rfl⟩ := step_eq_ok_iff.mp hs
          refine ⟨?_, ?_⟩
          · rw [State.after_succ_of_step hstep]
            exact hafter
          · refine hup.trans ?_
            rw [show m.steps + 1 + i = m.steps + (i + 1) by omega]
            rfl

/-- Where a story ends the machine stops. -/
theorem Story.stops_at_end {m : Machine ν} {states : List (State ν)}
    {answer : Except (EvalError ν) (State ν)} (h : m.Story states answer) :
    ∃ k, states.length = k + 1 ∧ (m.stepUpTo k).1.Stops answer := by
  induction h with
  | stops h => exact ⟨0, rfl, h⟩
  | steps hs _ ih =>
      obtain ⟨k, hk, hstops⟩ := ih
      refine ⟨k + 1, by rw [List.length_cons, hk], ?_⟩
      rw [stepUpTo, hs]
      exact hstops

theorem Story.run? {m : Machine ν} {states : List (State ν)}
    {answer : Except (EvalError ν) (State ν)} (h : m.Story states answer) :
    m.run? states.length = some answer := by
  induction h with
  | @stops m answer h =>
      rw [List.length_singleton, Machine.run?]
      cases answer with
      | ok s => rw [if_pos h.1, h.2]
      | error e => simp only [h.1, Bool.false_eq_true, if_false, h.2]
  | steps hs _ ih =>
      rw [List.length_cons, Machine.run?, hs]
      simp only [not_terminal_of_step hs, Bool.false_eq_true, if_false]
      exact ih

theorem Story.trace? {m : Machine ν} {states : List (State ν)}
    {answer : Except (EvalError ν) (State ν)} (h : m.Story states answer) :
    m.trace? states.length = some (answer.map fun _ => states) := by
  induction h with
  | @stops m answer h =>
      rw [List.length_singleton, Machine.trace?]
      cases answer with
      | ok s =>
          rw [if_pos h.1]
          rfl
      | error e =>
          simp only [h.1, Bool.false_eq_true, if_false, h.2]
          rfl
  | @steps m next states answer hs _ ih =>
      rw [List.length_cons, Machine.trace?, hs]
      simp only [not_terminal_of_step hs, Bool.false_eq_true, if_false]
      rw [ih, Option.map_some]
      cases answer <;> rfl

/-- A silent run that ends has a story, and returns what that ends with. -/
theorem exists_story {fuel : Nat} {m : Machine ν} {answer : Except (EvalError ν) (State ν)}
    (h : m.run? fuel = some answer) : ∃ states, m.Story states answer := by
  rcases exists_story_or_unfinished fuel m with ⟨states, answer', hstory⟩ | ⟨hrun, -⟩
  · have h := run?_mono (Nat.le_max_left fuel states.length) h
    rw [run?_mono (Nat.le_max_right fuel states.length) hstory.run?] at h
    cases h
    exact ⟨states, hstory⟩
  · rw [hrun] at h
    cases h

/-- What a traced run writes. For human readers each state is a line, and an empty
line follows if the last of them is the result. For programs each state is a record
that carries the number of the step that led to it. -/
def transcript (m : Machine ν) (states : List (State ν))
    (answer : Except (EvalError ν) (State ν)) : String :=
  match m.config.traceFormat with
  | .text =>
      String.join (states.map fun s => s.render ++ "\n") ++ if answer.isOk then "\n" else ""
  | .json =>
      String.join (states.mapIdx fun i s =>
        (Json.ofFields
          [("step", .ofInt ((m.steps + i : Nat) : Int)),
            ("statement", .ofString s.statement.render),
            ("environment", Exchange.toJson s.environment)]).write ++ "\n")

theorem transcript_stops (m : Machine ν) (answer : Except (EvalError ν) (State ν)) :
    m.transcript [m.state] answer = m.traceLine ++ if answer.isOk then m.traceEnd else "" := by
  rw [transcript, traceLine, traceEnd]
  cases m.config.traceFormat with
  | text => simp [String.join_cons]
  | json => simp [String.join_cons, record]

theorem transcript_steps {m next : Machine ν} (hs : m.step = (.ok (), next)) (states : List (State ν))
    (answer : Except (EvalError ν) (State ν)) :
    m.transcript (m.state :: states) answer = m.traceLine ++ next.transcript states answer := by
  obtain ⟨-, s, -, rfl⟩ := step_eq_ok_iff.mp hs
  rw [transcript, transcript, traceLine]
  cases m.config.traceFormat with
  | text =>
      rw [List.map_cons, String.join_cons, String.append_assoc]
  | json =>
      rw [List.mapIdx_cons, String.join_cons]
      simp only [Nat.add_right_comm m.steps 1]
      rfl

theorem Story.runTracedFor {m : Machine ν} {states : List (State ν)}
    {answer : Except (EvalError ν) (State ν)} (h : m.Story states answer) (written : ByteArray) :
    m.runTracedFor states.length ⟨written, none⟩ =
      (⟨written ++ (m.transcript states answer).toUTF8, none⟩, some (answer.mapError .eval)) := by
  induction h generalizing written with
  | @stops m answer h =>
      rw [List.length_singleton, Machine.runTracedFor, Sink.write_of_no_capacity,
        transcript_stops]
      cases answer with
      | ok s =>
          obtain ⟨ht, rfl⟩ := h
          simp only [ht, if_true, Sink.write_of_no_capacity]
          rw [utf8_append, ← ByteArray.append_assoc]
          rfl
      | error e =>
          obtain ⟨ht, hs⟩ := h
          simp only [ht, Bool.false_eq_true, if_false, hs]
          rw [show (m.traceLine ++ if (Except.error e : Except (EvalError ν) (State ν)).isOk
            then m.traceEnd else "") = m.traceLine from String.append_empty]
          rfl
  | @steps m next states answer hs _ ih =>
      rw [List.length_cons, Machine.runTracedFor, Sink.write_of_no_capacity, transcript_steps hs]
      simp only [not_terminal_of_step hs, Bool.false_eq_true, if_false, hs]
      rw [ih, utf8_append, ByteArray.append_assoc]

theorem Story.runTraced? {m : Machine ν} {states : List (State ν)}
    {answer : Except (EvalError ν) (State ν)} (h : m.Story states answer) (written : ByteArray) :
    m.runTraced? states.length ⟨written, none⟩ =
      some (⟨written ++ (m.transcript states answer).toUTF8, none⟩, answer.mapError .eval) :=
  runTraced?_eq_some_iff.mpr (h.runTracedFor written)

/-- A traced run that ends has a story, and what it wrote is the transcript of that. -/
theorem exists_story_of_runTraced? {fuel : Nat} {m : Machine ν} {written : ByteArray} {sink : Sink}
    {result : Except (RunError ν) (State ν)}
    (h : m.runTraced? fuel ⟨written, none⟩ = some (sink, result)) :
    ∃ states answer, m.Story states answer ∧ result = answer.mapError .eval ∧
      sink.written = written ++ (m.transcript states answer).toUTF8 := by
  rcases exists_story_or_unfinished fuel m with ⟨states, answer, hstory⟩ | ⟨-, -, hnone⟩
  · have h := runTraced?_mono (Nat.le_max_left fuel states.length) h
    rw [runTraced?_mono (Nat.le_max_right fuel states.length) (hstory.runTraced? written)] at h
    cases h
    exact ⟨states, answer, hstory, rfl, rfl⟩
  · rw [runTraced?_eq_none_iff.mpr (hnone written)] at h
    cases h

/-- All ways of driving a machine tell the same story. There is one, of as many states as
this takes, if the pure step leads to a state where the machine stops, and no limit is in
the way before. Without one, no fuel lets any of them see an end. With one, its states are
those that the pure step goes through, and the machine takes exactly those steps and stops
in the last. Given fuel for that, the silent run and the traced run return what it stops
with, the trace is the list of all the states unless that is an error, and what is
written, to a sink that never fails, is the transcript. -/
theorem drivers_tell_story (m : Machine ν) :
    (∀ k s answer, State.after k m.state = .ok s →
      (∀ i < k, ∀ limit, m.config.stepLimit = some limit → m.steps + i < limit) →
      Stops { m with state := s, steps := m.steps + k } answer →
      ∃ states, states.length = k + 1 ∧ m.Story states answer) ∧
    ((¬ ∃ states answer, m.Story states answer) → ∀ fuel,
      m.run? fuel = none ∧ m.trace? fuel = none ∧
        ∀ written, m.runTraced? fuel ⟨written, none⟩ = none) ∧
    ∀ states answer, m.Story states answer →
      (∀ (i : Nat) (hi : i < states.length), State.after i m.state = .ok states[i] ∧
        m.stepUpTo i = ({ m with state := states[i], steps := m.steps + i }, none)) ∧
      (∃ k, states.length = k + 1 ∧ (m.stepUpTo k).1.Stops answer) ∧
      ∀ fuel, states.length ≤ fuel →
        m.run? fuel = some answer ∧
        m.trace? fuel = some (answer.map fun _ => states) ∧
        ∀ written, m.runTraced? fuel ⟨written, none⟩ =
          some (⟨written ++ (m.transcript states answer).toUTF8, none⟩,
            answer.mapError .eval) := by
  refine ⟨fun k s answer hafter hroom hstops => exists_story_of_after hafter hroom hstops,
    fun hno fuel => ?_, fun states answer h => ?_⟩
  · rcases exists_story_or_unfinished fuel m with hstory | ⟨hrun, htrace, htraced⟩
    · exact absurd hstory hno
    · exact ⟨hrun, htrace, fun written => runTraced?_eq_none_iff.mpr (htraced written)⟩
  · refine ⟨h.state_at, h.stops_at_end, fun fuel hle => ?_⟩
    refine ⟨run?_mono hle h.run?, trace?_mono hle h.trace?, fun written => ?_⟩
    exact runTraced?_mono hle (h.runTraced? written)

/-- A machine that has taken four steps before goes on for two, and would have failed after
these if its limit had not been spent. All three drivers say so, and three states are
written. -/
theorem spent_limit_is_told_alike :
    let m : Machine Int64 :=
      ⟨⟨.sequence (.assign "x" (.number 1)) (.var "y"), .empty⟩, 4, ⟨some 6, .text⟩⟩
    let e : EvalError Int64 := .stepLimitExceeded 6
    m.run? 3 = some (.error e) ∧ m.trace? 3 = some (.error e) ∧
      m.runTraced? 3 .unlimited =
        some (⟨"x = 1; y, \x7b\x7d\ndo-nothing; y, \x7bx => 1\x7d\ny, \x7bx => 1\x7d\n".toUTF8,
          none⟩, .error (.eval e)) := by
  intro m e
  obtain ⟨hstory, -, htold⟩ := drivers_tell_story m
  obtain ⟨states, hlength, hstates⟩ := hstory 2 _ (.error e) rfl (fun i hi limit hlimit => by
    cases hlimit
    show 4 + i < 6
    omega) ⟨rfl, rfl⟩
  obtain ⟨hafter, -, hdrivers⟩ := htold states (.error e) hstates
  obtain ⟨hrun, htrace, htraced⟩ := hdrivers 3 (Nat.le_of_eq hlength)
  refine ⟨hrun, htrace, (htraced .empty).trans ?_⟩
  match states with
  | [a, b, c] =>
      cases (hafter 0 (by simp)).1
      cases (hafter 1 (by simp)).1
      cases (hafter 2 (by simp)).1
      rfl

end Machine

end WhileLang
