import WhileLang.Machine.Trace

/-!
# Runs are stable in their fuel

Each way of running a machine gives up when its fuel is spent, and each keeps its
answer when it is given more. So the fuel never decides what the answer is, only
whether there is one yet.
-/

namespace WhileLang.Machine

variable {ν : Type} [Arithmetic ν]

theorem run?_mono {n k : Nat} {m : Machine ν} {answer : Except (EvalError ν) (State ν)}
    (hle : n ≤ k) (h : m.run? n = some answer) : m.run? k = some answer := by
  induction n generalizing k m with
  | zero =>
    rw [run?.eq_def] at h ⊢
    split at h
    · next ht => rwa [if_pos ht]
    · exact absurd h (by simp)
  | succ n ih =>
    obtain ⟨k, rfl⟩ : ∃ k', k = k' + 1 := ⟨k - 1, by omega⟩
    rw [run?.eq_def] at h ⊢
    split at h
    · next ht => rwa [if_pos ht]
    · next ht =>
      rw [if_neg ht]
      match hs : m.step with
      | (.error e, _) => simpa [hs] using h
      | (.ok (), next) =>
        simp only [hs] at h ⊢
        exact ih (by omega) h

/-- Any two runs with fuel enough come to the same answer. -/
theorem run?_unique {n k : Nat} {m : Machine ν} {a b : Except (EvalError ν) (State ν)}
    (ha : m.run? n = some a) (hb : m.run? k = some b) : a = b := by
  have ha := run?_mono (Nat.le_max_left n k) ha
  have hb := run?_mono (Nat.le_max_right n k) hb
  rw [ha] at hb
  exact Option.some.inj hb

theorem trace?_mono {n k : Nat} {m : Machine ν} {answer : Except (EvalError ν) (List (State ν))}
    (hle : n ≤ k) (h : m.trace? n = some answer) : m.trace? k = some answer := by
  induction n generalizing k m answer with
  | zero =>
    rw [trace?.eq_def] at h ⊢
    split at h
    · next ht => rwa [if_pos ht]
    · exact absurd h (by simp)
  | succ n ih =>
    obtain ⟨k, rfl⟩ : ∃ k', k = k' + 1 := ⟨k - 1, by omega⟩
    rw [trace?.eq_def] at h ⊢
    split at h
    · next ht => rwa [if_pos ht]
    · next ht =>
      rw [if_neg ht]
      match hs : m.step with
      | (.error e, _) => simpa [hs] using h
      | (.ok (), next) =>
        simp only [hs, Option.map_eq_some_iff] at h ⊢
        obtain ⟨states, hstates, rfl⟩ := h
        exact ⟨states, ih (by omega) hstates, rfl⟩

theorem runTracedFor_mono {n k : Nat} {m : Machine ν} {sink last : Sink}
    {answer : Except (RunError ν) (State ν)} (hle : n ≤ k)
    (h : m.runTracedFor n sink = (last, some answer)) :
    m.runTracedFor k sink = (last, some answer) := by
  induction n generalizing k m sink with
  | zero =>
    rw [runTracedFor.eq_def] at h ⊢
    split at h
    · exact h
    · split at h
      · next ht => simpa [ht] using h
      · exact absurd h (by simp)
  | succ n ih =>
    obtain ⟨k, rfl⟩ : ∃ k', k = k' + 1 := ⟨k - 1, by omega⟩
    rw [runTracedFor.eq_def] at h ⊢
    split at h
    · exact h
    · split at h
      · next ht => simpa [ht] using h
      · next ht =>
        simp only [if_neg ht]
        match hs : m.step with
        | (.error e, _) => simpa [hs] using h
        | (.ok (), next) =>
          simp only [hs] at h ⊢
          exact ih (by omega) h

theorem runTraced?_mono {n k : Nat} {m : Machine ν} {sink : Sink}
    {answer : Sink × Except (RunError ν) (State ν)}
    (hle : n ≤ k) (h : m.runTraced? n sink = some answer) :
    m.runTraced? k sink = some answer := by
  obtain ⟨last, answer⟩ := answer
  rw [runTraced?_eq_some_iff] at h ⊢
  exact runTracedFor_mono hle h

end WhileLang.Machine
