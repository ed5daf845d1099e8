import WhileLang.Proofs.Priced
import WhileLang.Reduction

/-!
# Where a run of steps ends

A run from a state is its iterated steps. It is over at the first state that
has no step, and there are two kinds of these: a terminal state, which is the
result, and a state that is not terminal and whose step fails, whose error is
the result. `Halts` says after how many steps that happens and with which of
the two; a run that goes on for ever halts at no number.

Since a step is a function, a run halts in one way at most. And since the last
state is known from the first in both cases, halting can be read off one step
at a time (`halts_zero`, `halts_succ`), which is how everything later uses it.
-/

namespace WhileLang

variable {ν : Type}

theorem State.isTerminal_iff {s : State ν} :
    s.isTerminal = true ↔ s.statement.isReducible = false := by
  rw [isTerminal, Bool.not_eq_true']

theorem State.isTerminal_eq_false_iff {s : State ν} :
    s.isTerminal = false ↔ s.statement.isReducible = true := by
  rw [isTerminal, Bool.not_eq_false']

variable [Arithmetic ν]

/-- A settled term has no step. -/
theorem Term.reduce_of_settled {t : Term ν} (h : t.isReducible = false) (env : Environment ν) :
    t.reduce env = .error t.irreducible := by
  cases t with
  | number n => rfl
  | boolean b => rfl
  | doNothing => rfl
  | _ => simp [Term.isReducible] at h

namespace State

theorem step_of_terminal {s : State ν} (h : s.isTerminal = true) :
    s.step = .error s.statement.irreducible :=
  Term.reduce_of_settled (isTerminal_iff.mp h) s.environment

/-- Only a state that is not terminal has a next one. -/
theorem not_terminal_of_step {s next : State ν} (h : s.step = .ok next) : s.isTerminal = false := by
  cases ht : s.isTerminal with
  | false => rfl
  | true =>
      rw [step_of_terminal ht] at h
      cases h

/-- The state after so many steps, or the error of the first that fails. -/
def after : Nat → State ν → Except (EvalError ν) (State ν)
  | 0, s => .ok s
  | n + 1, s => s.step >>= after n

theorem after_succ_of_step {s next : State ν} (h : s.step = .ok next) (n : Nat) :
    after (n + 1) s = after n next := by
  rw [after, h]
  rfl

theorem after_succ_eq_ok_iff {s t : State ν} {n : Nat} :
    after (n + 1) s = .ok t ↔ ∃ next, s.step = .ok next ∧ after n next = .ok t := by
  rw [after]
  cases s.step with
  | error e =>
      refine ⟨fun h => ?_, fun h => ?_⟩
      · cases h
      · obtain ⟨next, hnext, -⟩ := h
        cases hnext
  | ok next =>
      refine ⟨fun h => ⟨next, rfl, h⟩, fun h => ?_⟩
      obtain ⟨next', hnext, ht⟩ := h
      cases hnext
      exact ht

theorem after_add {s t : State ν} {n : Nat} (h : after n s = .ok t) (k : Nat) :
    after (n + k) s = after k t := by
  induction n generalizing s with
  | zero =>
      cases h
      rw [Nat.zero_add]
  | succ n ih =>
      obtain ⟨next, hnext, h⟩ := after_succ_eq_ok_iff.mp h
      rw [Nat.succ_add, after_succ_of_step hnext, ih h]

/-- What every step keeps, a run keeps. -/
theorem after_induction {motive : State ν → Prop} {s t : State ν} {n : Nat}
    (h : after n s = .ok t) (start : motive s)
    (step : ∀ u next, motive u → u.step = .ok next → motive next) : motive t := by
  induction n generalizing s with
  | zero =>
      cases h
      exact start
  | succ n ih =>
      obtain ⟨next, hnext, h⟩ := after_succ_eq_ok_iff.mp h
      exact ih h (step s next start hnext)

/-- A state that ends a run, and how: it is the result if it is terminal, and
otherwise its step fails. -/
def Stops (s : State ν) : Except (EvalError ν) (State ν) → Prop
  | .ok t => s.isTerminal = true ∧ t = s
  | .error e => s.isTerminal = false ∧ s.step = .error e

/-- After `n` steps the run ends, and this is what it ends in. -/
def Halts (s : State ν) (n : Nat) (answer : Except (EvalError ν) (State ν)) : Prop :=
  ∃ t, after n s = .ok t ∧ t.Stops answer

theorem halts_ok_iff {s t : State ν} {n : Nat} :
    s.Halts n (.ok t) ↔ after n s = .ok t ∧ t.isTerminal = true := by
  refine ⟨fun h => ?_, fun h => ⟨t, h.1, h.2, rfl⟩⟩
  obtain ⟨u, hu, ht, rfl⟩ := h
  exact ⟨hu, ht⟩

theorem halts_zero {s : State ν} {answer : Except (EvalError ν) (State ν)} :
    s.Halts 0 answer ↔ s.Stops answer := by
  refine ⟨fun h => ?_, fun h => ⟨s, rfl, h⟩⟩
  obtain ⟨t, ht, hstops⟩ := h
  cases ht
  exact hstops

theorem halts_succ {s : State ν} {n : Nat} {answer : Except (EvalError ν) (State ν)} :
    s.Halts (n + 1) answer ↔ ∃ next, s.step = .ok next ∧ next.Halts n answer := by
  refine ⟨fun h => ?_, fun h => ?_⟩
  · obtain ⟨t, ht, hstops⟩ := h
    obtain ⟨next, hnext, ht⟩ := after_succ_eq_ok_iff.mp ht
    exact ⟨next, hnext, t, ht, hstops⟩
  · obtain ⟨next, hnext, t, ht, hstops⟩ := h
    exact ⟨t, after_succ_eq_ok_iff.mpr ⟨next, hnext, ht⟩, hstops⟩

theorem not_stops_of_step {s next : State ν} (h : s.step = .ok next)
    (answer : Except (EvalError ν) (State ν)) : ¬ s.Stops answer := by
  intro hs
  cases answer with
  | ok t =>
      have ht := not_terminal_of_step h
      rw [hs.1] at ht
      cases ht
  | error e =>
      have he := hs.2
      rw [h] at he
      cases he

theorem Stops.unique {s : State ν} {a b : Except (EvalError ν) (State ν)} (ha : s.Stops a)
    (hb : s.Stops b) : a = b := by
  match a, b with
  | .ok t, .ok u => rw [ha.2, hb.2]
  | .ok t, .error e => exact absurd (ha.1.symm.trans hb.1) (by simp)
  | .error e, .ok t => exact absurd (hb.1.symm.trans ha.1) (by simp)
  | .error e, .error e' =>
      have h := ha.2.symm.trans hb.2
      cases h
      rfl

/-- A run halts at one point, and in one way. -/
theorem Halts.unique {s : State ν} {n k : Nat} {a b : Except (EvalError ν) (State ν)}
    (ha : s.Halts n a) (hb : s.Halts k b) : n = k ∧ a = b := by
  induction n generalizing s k with
  | zero =>
      have ha := halts_zero.mp ha
      cases k with
      | zero => exact ⟨rfl, ha.unique (halts_zero.mp hb)⟩
      | succ k =>
          obtain ⟨next, hnext, -⟩ := halts_succ.mp hb
          exact absurd ha (not_stops_of_step hnext a)
  | succ n ih =>
      obtain ⟨next, hnext, ha⟩ := halts_succ.mp ha
      cases k with
      | zero => exact absurd (halts_zero.mp hb) (not_stops_of_step hnext b)
      | succ k =>
          obtain ⟨next', hnext', hb⟩ := halts_succ.mp hb
          rw [hnext] at hnext'
          cases hnext'
          obtain ⟨rfl, h⟩ := ih ha hb
          exact ⟨rfl, h⟩

/-! ## Runs in other terms

A state may be put in other terms, and perhaps of another number type, and the answers with
it. If its run takes the same steps in these, it ends where it did. -/

/-- `put` puts a state in other terms, and `tell` the answer of a run: an error stays an
error, and the end stays the end. -/
structure Translates {μ : Type} (put : State ν → State μ)
    (tell : Except (EvalError ν) (State ν) → Except (EvalError μ) (State μ)) : Prop where
  ok : ∀ s, tell (.ok s) = .ok (put s)
  error : ∀ e, ∃ e', tell (.error e) = .error e'
  isTerminal : ∀ s, (put s).isTerminal = s.isTerminal

namespace Translates

variable {μ : Type} [Arithmetic μ] {put : State ν → State μ}
  {tell : Except (EvalError ν) (State ν) → Except (EvalError μ) (State μ)}

theorem stops_iff (h : Translates put tell) {s : State ν} (hstep : (put s).step = tell s.step)
    {answer : Except (EvalError μ) (State μ)} :
    (put s).Stops answer ↔ ∃ answer', s.Stops answer' ∧ answer = tell answer' := by
  refine ⟨fun hs => ?_, fun hs => ?_⟩
  · cases answer with
    | ok t =>
        obtain ⟨ht, rfl⟩ := hs
        exact ⟨.ok s, ⟨(h.isTerminal s).symm.trans ht, rfl⟩, (h.ok s).symm⟩
    | error e =>
        obtain ⟨ht, he⟩ := hs
        rw [hstep] at he
        cases hs' : s.step with
        | ok next =>
            rw [hs', h.ok] at he
            cases he
        | error e' =>
            rw [hs'] at he
            exact ⟨.error e', ⟨(h.isTerminal s).symm.trans ht, hs'⟩, he.symm⟩
  · obtain ⟨answer', hs, rfl⟩ := hs
    cases answer' with
    | ok t =>
        obtain ⟨ht, rfl⟩ := hs
        rw [h.ok]
        exact ⟨(h.isTerminal t).trans ht, rfl⟩
    | error e =>
        obtain ⟨ht, he⟩ := hs
        obtain ⟨e', he'⟩ := h.error e
        rw [he']
        exact ⟨(h.isTerminal s).trans ht, by rw [hstep, he, he']⟩

theorem halts_iff (h : Translates put tell) {s : State ν} {n : Nat}
    (hafter : after n (put s) = tell (after n s))
    (hstep : ∀ t, after n s = .ok t → (put t).step = tell t.step)
    {answer : Except (EvalError μ) (State μ)} :
    (put s).Halts n answer ↔ ∃ answer', s.Halts n answer' ∧ answer = tell answer' := by
  cases ht : after n s with
  | error e =>
      obtain ⟨e', he'⟩ := h.error e
      rw [ht, he'] at hafter
      simp only [Halts, ht, hafter, reduceCtorEq, false_and, exists_false]
  | ok t =>
      rw [ht, h.ok] at hafter
      simp only [Halts, ht, hafter, Except.ok.injEq, exists_eq_left']
      exact h.stops_iff (hstep t ht)

end Translates

end State

end WhileLang
