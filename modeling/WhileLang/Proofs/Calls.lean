import WhileLang.Proofs.StepLimit

/-!
# A machine stepped by hand

A caller may go on calling `step` after it has failed. Nothing comes of it, and that is a
fact about two things at once: a call that fails leaves the machine as it was, and all
that a call looks at is the machine. So the first failure is every later one, and the
answers to any number of calls are first successes and then one error over and over.

What the error is depends on the order in which a machine looks for a reason to stay where
it is (`Refuses`): it has come to the end, or its limit is spent, or the program itself has
no next step. The calls that succeed are the steps of the state, each counted once
(`Advances`).
-/

namespace WhileLang.Machine

variable {ν : Type} [Arithmetic ν]

/-- Calls `step` so many times, whatever it answers: all answers, and the machine left. -/
def calls : Nat → Machine ν → List (Except (EvalError ν) Unit) × Machine ν
  | 0, m => ([], m)
  | n + 1, m => (m.step.1 :: (calls n m.step.2).1, (calls n m.step.2).2)

/-- The machine takes no step, and this is the reason it gives. -/
inductive Refuses (m : Machine ν) : EvalError ν → Prop where
  | terminal (hterm : m.isTerminal = true) :
      Refuses m (.violation (.irreducible m.state.statement.render))
  | spent {limit : Nat} (hterm : m.isTerminal = false)
      (hlimit : m.config.stepLimit = some limit) (hle : limit ≤ m.steps) :
      Refuses m (.stepLimitExceeded limit)
  | fails {e : EvalError ν} (hterm : m.isTerminal = false)
      (hroom : ∀ limit, m.config.stepLimit = some limit → m.steps < limit)
      (hstep : m.state.statement.reduce m.state.environment = .error e) : Refuses m e

/-- So many steps lead from one machine to the other. Each is one of the state and is
counted, and none is taken beyond the limit. -/
structure Advances (m : Machine ν) (n : Nat) (last : Machine ν) : Prop where
  after : State.after n m.state = .ok last.state
  steps : last.steps = m.steps + n
  config : last.config = m.config
  within : ∀ limit, m.config.stepLimit = some limit → m.steps ≤ limit → last.steps ≤ limit

/-- A step fails for one of the reasons to refuse it, and the machine is as it was. -/
theorem step_eq_error_iff {m last : Machine ν} {e : EvalError ν} :
    m.step = (.error e, last) ↔ m.Refuses e ∧ last = m := by
  refine ⟨fun h => ⟨?_, step_of_error h⟩, fun h => ?_⟩
  · cases hterm : m.isTerminal with
    | true =>
        rw [step_of_terminal hterm] at h
        cases h
        exact .terminal hterm
    | false =>
        rcases step_eq_error hterm h with ⟨limit, hspent, rfl⟩ | ⟨hspent, hstep⟩
        · obtain ⟨hlimit, hle⟩ := spentLimit?_eq_some_iff.mp hspent
          exact .spent hterm hlimit hle
        · exact .fails hterm (spentLimit?_eq_none_iff.mp hspent) hstep
  · obtain ⟨hrefuses, rfl⟩ := h
    cases hrefuses with
    | terminal hterm =>
        rw [step_of_terminal hterm]
        rfl
    | spent hterm hlimit hle =>
        exact step_of_spent hterm (spentLimit?_eq_some_iff.mpr ⟨hlimit, hle⟩)
    | fails hterm hroom hstep =>
        rw [step_of_room hterm (spentLimit?_eq_none_iff.mpr hroom), State.step, hstep]

theorem Refuses.step {m : Machine ν} {e : EvalError ν} (h : m.Refuses e) :
    m.step = (.error e, m) :=
  step_eq_error_iff.mpr ⟨h, rfl⟩

/-- Once a machine refuses, every call is answered alike and leaves it there. -/
theorem Refuses.calls {m : Machine ν} {e : EvalError ν} (h : m.Refuses e) (n : Nat) :
    m.calls n = (List.replicate n (.error e), m) := by
  induction n with
  | zero => rfl
  | succ n ih => rw [Machine.calls, h.step, ih, List.replicate_succ]

namespace Advances

theorem refl (m : Machine ν) : m.Advances 0 m :=
  ⟨rfl, rfl, rfl, fun _ _ hle => hle⟩

theorem step {m next last : Machine ν} {n : Nat} (hs : m.step = (.ok (), next))
    (h : next.Advances n last) : m.Advances (n + 1) last := by
  obtain ⟨hspent, s, hstep, rfl⟩ := step_eq_ok_iff.mp hs
  obtain ⟨hafter, hsteps, hconfig, hwithin⟩ := h
  refine ⟨State.after_succ_eq_ok_iff.mpr ⟨s, hstep, hafter⟩, ?_, hconfig, ?_⟩
  · rw [hsteps]
    show m.steps + 1 + n = m.steps + (n + 1)
    omega
  · intro limit hlimit _
    exact hwithin limit hlimit (spentLimit?_eq_none_iff.mp hspent limit hlimit)

theorem of_start {t : Term ν} {env : Environment ν} {config : Config} {n : Nat}
    {last : Machine ν} (h : (start t env config).Advances n last) :
    last.steps = n ∧ State.after n ⟨t, env⟩ = .ok last.state ∧ last.config = config ∧
      ∀ limit, config.stepLimit = some limit → n ≤ limit := by
  have hsteps : last.steps = n := h.steps.trans (Nat.zero_add n)
  refine ⟨hsteps, h.after, h.config, fun limit hlimit => ?_⟩
  rw [← hsteps]
  exact h.within limit hlimit (Nat.zero_le limit)

end Advances

theorem countP_isOk_ok {ε : Type} (n : Nat) :
    (List.replicate n (.ok () : Except ε Unit)).countP Except.isOk = n := by
  rw [List.countP_replicate]
  rfl

theorem countP_isOk_error {ε : Type} (n : Nat) (e : ε) :
    (List.replicate n (.error e : Except ε Unit)).countP Except.isOk = 0 := by
  rw [List.countP_replicate]
  rfl

/-- Either all of the calls advance the machine, or the first of them do and the machine
refuses the others. Stopping at the first failure misses nothing. -/
theorem calls_advance (n : Nat) (m : Machine ν) :
    (∃ last, m.Advances n last ∧ m.calls n = (List.replicate n (.ok ()), last) ∧
      m.stepUpTo n = (last, none)) ∨
    ∃ j last e, j < n ∧ m.Advances j last ∧ last.Refuses e ∧
      m.calls n = (List.replicate j (.ok ()) ++ List.replicate (n - j) (.error e), last) ∧
      m.stepUpTo n = (last, some e) := by
  induction n generalizing m with
  | zero => exact .inl ⟨m, .refl m, rfl, rfl⟩
  | succ n ih =>
      match hs : m.step with
      | (.error e, last) =>
          obtain ⟨hrefuses, rfl⟩ := step_eq_error_iff.mp hs
          refine .inr ⟨0, last, e, Nat.succ_pos n, .refl last, hrefuses, hrefuses.calls (n + 1), ?_⟩
          rw [stepUpTo, hs]
      | (.ok (), next) =>
          rw [calls, stepUpTo, hs]
          rcases ih next with ⟨last, hadvances, hcalls, hup⟩ |
            ⟨j, last, e, hlt, hadvances, hrefuses, hcalls, hup⟩
          · refine .inl ⟨last, hadvances.step hs, ?_, hup⟩
            rw [hcalls, List.replicate_succ]
          · refine .inr ⟨j + 1, last, e, by omega, hadvances.step hs, hrefuses, ?_, hup⟩
            rw [hcalls, List.replicate_succ, Nat.add_sub_add_right]
            rfl

/-- However often a fresh machine is called, the calls that succeed come first. As many as
there were, so far has it counted and so many steps from its start is its state, and the
limit was not passed. If there were others, then all of them had one answer: the reason
for which the machine refuses to go on from there, and will whenever it is called again. -/
theorem calls_succeed_then_refuse (t : Term ν) (env : Environment ν) (config : Config)
    (n : Nat) :
    let answers := ((start t env config).calls n).1
    let last := ((start t env config).calls n).2
    let j := answers.countP Except.isOk
    last.steps = j ∧ State.after j ⟨t, env⟩ = .ok last.state ∧ last.config = config ∧
    (∀ limit, config.stepLimit = some limit → j ≤ limit) ∧
    ((j = n ∧ answers = List.replicate n (.ok ()) ∧
        (start t env config).stepUpTo n = (last, none)) ∨
      (j < n ∧ ∃ e, last.Refuses e ∧
        answers = List.replicate j (.ok ()) ++ List.replicate (n - j) (.error e) ∧
        (∀ k, last.calls k = (List.replicate k (.error e), last)) ∧
        (start t env config).stepUpTo n = (last, some e))) := by
  rcases calls_advance n (start t env config) with ⟨last, h, hcalls, hup⟩ |
    ⟨j, last, e, hlt, h, hrefuses, hcalls, hup⟩
  · obtain ⟨hsteps, hafter, hconfig, hlimit⟩ := h.of_start
    rw [hcalls]
    dsimp only
    rw [countP_isOk_ok]
    exact ⟨hsteps, hafter, hconfig, hlimit, .inl ⟨rfl, rfl, hup⟩⟩
  · obtain ⟨hsteps, hafter, hconfig, hlimit⟩ := h.of_start
    rw [hcalls]
    dsimp only
    rw [List.countP_append, countP_isOk_ok, countP_isOk_error, Nat.add_zero]
    exact ⟨hsteps, hafter, hconfig, hlimit, .inr ⟨hlt, e, hrefuses, rfl, hrefuses.calls, hup⟩⟩

/-- A machine whose one step was its last and its limit, too, says that it is at its end. -/
example : (calls 3 (start (.assign "x" (.number (7 : Int64))) .empty ⟨some 1, .text⟩)).1 =
    [.ok (), .error (.violation (.irreducible "do-nothing")),
      .error (.violation (.irreducible "do-nothing"))] :=
  rfl

end WhileLang.Machine
