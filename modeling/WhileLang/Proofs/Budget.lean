import WhileLang.Proofs.Agreement
import WhileLang.Proofs.Rate

/-!
# A budget of gas is a budget of steps

Whatever loops a program has, what one way of evaluating it spends bounds what the
other spends. The rate at which steps convert to gas was found for every way a run can
end; here it is read at the one end that a program has. A budget in the one currency is
then turned into one in the other, and the limits do the rest: what is within a limit
is not changed by it. A step limit must leave room for one step more if the run fails,
and at five halves there is room for that.
-/

namespace WhileLang

variable {ν : Type} [Arithmetic ν]

namespace Term

/-- The steps and the gas of the same program. -/
theorem steps_le_and_gas_le {t : Term ν} {env : Environment ν} {n g : Nat}
    {a b : Except (EvalError ν) (State ν)} (hn : State.Halts ⟨t, env⟩ n a)
    (hg : t.Evaluates env .unbounded b ⟨g, none⟩) :
    a = b ∧ 2 * n + 3 ≤ 5 * g ∧ (a.isOk = true → g ≤ 2 * n + 1) := by
  obtain ⟨g', hg', hlow, hhigh⟩ := run_converts (n + 1) t env (Nat.lt_succ_self n) hn
  have hg' : t.Evaluates env .unbounded a ⟨g', none⟩ := hg'
  obtain ⟨rfl, hm⟩ := hg'.unique hg
  obtain rfl : g' = g := congrArg Meter.gas hm
  refine ⟨rfl, by omega, fun hok => ?_⟩
  have hhigh := hhigh hok
  omega

/-- An answer that a gas limit allows is allowed by the step limit it converts to. -/
theorem run?_of_gasLimit {t : Term ν} {env : Environment ν} {limit : Nat} {m' : Meter}
    {answer : Except (EvalError ν) (State ν)}
    (h : t.Evaluates env (.withLimit limit) answer m') (hne : answer ≠ .error .gasExhausted)
    (format : TraceFormat) :
    ∃ fuel, (Machine.start t env ⟨some (5 * limit / 2), format⟩).run? fuel = some answer := by
  rcases h.of_limited (Nat.zero_le limit) with ⟨g, hle, -, hg⟩ | ⟨he, -⟩
  · obtain ⟨n, hn⟩ := exists_halts_iff_exists_evaluates.mpr ⟨g, hg⟩
    obtain ⟨-, hsteps, -⟩ := steps_le_and_gas_le hn hg
    have hroom : ∀ l, (Machine.start t env ⟨some (5 * limit / 2), format⟩).config.stepLimit =
        some l → (Machine.start t env ⟨some (5 * limit / 2), format⟩).steps + n < l := by
      intro l hl
      cases hl
      show 0 + n < 5 * limit / 2
      omega
    obtain ⟨states, hstory⟩ := Machine.exists_story_of_halts hn hroom
    exact ⟨_, hstory.run?⟩
  · exact absurd he hne

/-- A result that a step limit allows is allowed by the gas limit it converts to. -/
theorem evaluates_of_stepLimit {t : Term ν} {env : Environment ν} {limit fuel : Nat}
    {format : TraceFormat} {s : State ν}
    (h : (Machine.start t env ⟨some limit, format⟩).run? fuel = some (.ok s)) :
    ∃ m', t.Evaluates env (.withLimit (2 * limit + 1)) (.ok s) m' := by
  rcases Machine.halts_of_run? h with ⟨l, -, he⟩ | ⟨n, hn⟩
  · cases he
  · -- More steps than the limit would have been answered with the error of the limit.
    have hle : n ≤ limit := by
      obtain ⟨fuel', hreturns⟩ :=
        (Machine.returns_of_halts_ok rfl (Nat.zero_le limit) hn).silent
      have hsame := Machine.run?_unique h hreturns
      split at hsame
      · next hle =>
        have hle : 0 + n ≤ limit := hle
        omega
      · cases hsame
    obtain ⟨g, hg⟩ := exists_halts_iff_exists_evaluates.mp ⟨n, hn⟩
    obtain ⟨-, -, hgas⟩ := steps_le_and_gas_le hn hg
    have hgas := hgas rfl
    exact ⟨_, hg.limited (by omega)⟩

/-- The steps and the gas of a program bound each other. A program that stops in one way
of evaluating it stops in the other, with the same answer, and twice the steps and three
are at most five times the gas; if the answer is a result, the gas is at most twice the
steps and one. So a gas limit that suffices gives a step limit that suffices, and a step
limit under which there is a result gives such a gas limit. -/
theorem steps_and_gas_bound_each_other (t : Term ν) (env : Environment ν) :
    (∀ answer, (∃ n, State.Halts ⟨t, env⟩ n answer) ↔
      ∃ g, t.Evaluates env .unbounded answer ⟨g, none⟩) ∧
    (∀ a b n g, State.Halts ⟨t, env⟩ n a → t.Evaluates env .unbounded b ⟨g, none⟩ →
      a = b ∧ 2 * n + 3 ≤ 5 * g ∧ (a.isOk = true → g ≤ 2 * n + 1)) ∧
    (∀ limit answer m', t.Evaluates env (.withLimit limit) answer m' →
      answer ≠ .error .gasExhausted → ∀ format, ∃ fuel,
        (Machine.start t env ⟨some (5 * limit / 2), format⟩).run? fuel = some answer) ∧
    (∀ limit format fuel s,
      (Machine.start t env ⟨some limit, format⟩).run? fuel = some (.ok s) →
        ∃ m', t.Evaluates env (.withLimit (2 * limit + 1)) (.ok s) m') := by
  refine ⟨fun answer => exists_halts_iff_exists_evaluates, fun a b n g => steps_le_and_gas_le,
    fun limit answer m' h hne => run?_of_gasLimit h hne, ?_⟩
  intro limit format fuel s h
  exact evaluates_of_stepLimit h

/-- A loop that goes round once takes twelve steps and eleven units of gas. -/
theorem one_round_bounds_each_other :
    let t : Term Int64 := .whileLoop (.binary .lessThan (.var "x") (.number 1))
      (.assign "x" (.binary .add (.var "x") (.number 1)))
    let env : Environment Int64 := Environment.empty.insert "x" (.number 0)
    let answer : Except (EvalError Int64) (State Int64) :=
      .ok ⟨.doNothing, Environment.empty.insert "x" (.number 1)⟩
    State.Halts ⟨t, env⟩ 12 answer ∧ t.Evaluates env .unbounded answer ⟨11, none⟩ ∧
      (2 * 12 + 3 ≤ 5 * 11 ∧ 11 ≤ 2 * 12 + 1) ∧
      (∃ fuel, (Machine.start t env ⟨some 27, .text⟩).run? fuel = some answer) ∧
      ∃ m', t.Evaluates env (.withLimit 25) answer m' := by
  intro t env answer
  have hhalts : State.Halts ⟨t, env⟩ 12 answer :=
    ⟨⟨.doNothing, Environment.empty.insert "x" (.number 1)⟩, rfl, rfl, rfl⟩
  have hgas : t.Evaluates env .unbounded answer ⟨11, none⟩ := ⟨2, rfl⟩
  obtain ⟨states, hstory⟩ := Machine.exists_story_of_halts_ok
    (m := .start t env ⟨some 12, .text⟩) hhalts fun limit hlimit => by
      cases hlimit
      exact Nat.le_refl 12
  obtain ⟨-, hbounds, hsteps, hlimit⟩ := steps_and_gas_bound_each_other t env
  obtain ⟨-, hlow, hhigh⟩ := hbounds answer answer 12 11 hhalts hgas
  refine ⟨hhalts, hgas, ⟨hlow, hhigh rfl⟩, ?_, hlimit 12 .text _ _ hstory.run?⟩
  exact hsteps 11 answer ⟨11, some 11⟩ ⟨2, rfl⟩ nofun .text

end Term

end WhileLang
