import WhileLang.Evaluation.Outcome
import WhileLang.Proofs.GasLimit
import WhileLang.Proofs.Rate
import WhileLang.Proofs.StepLimit
import WhileLang.Proofs.Sweep

/-!
# Steps and sweeps agree

The machine and the evaluator share the questions they ask of settled terms, and
nothing else: the one rewrites the program, the other recurses over it and goes round
its loops. Both have been brought into one form, an equation for each construct, and
the two equations of a construct are the same program with its payments in different
places. What is left is that the payments do not matter.

Without loops this would be an induction over the term. A loop comes back inside its
own equation, and then only what has been paid gets any smaller, so the induction is on
a bound for the price. The two directions differ in what is certain to be paid for.
The machine pays to unroll a loop before it does anything else, but a settled term
costs it nothing, so within the induction on the price there is one over the term;
that is the induction which also finds the rate between the prices, and it is taken
from there. The sweep pays for every visit and needs no such thing, but a round of its
loops pays only through the condition; so there a loop and its rounds are taken together.

The limits come last. What a run halts with is returned under every limit that is large
enough, and what is returned under a limit, unless it is the error of that limit, is
what the run halts with.
-/

namespace WhileLang

variable {ν : Type} [Arithmetic ν]

namespace Term

/-- The steps convert to gas, so their ends are ends of the sweep. -/
theorem run_coveredBelow (N : Nat) (t : Term ν) (env : Environment ν) :
    (t.run env).CoveredBelow N (t.sweep env) := by
  intro n answer hn h
  obtain ⟨g, hg, -⟩ := run_converts N t env hn h
  exact ⟨g, hg⟩

theorem sweep_coveredBelow_and (N : Nat) :
    (∀ (t : Term ν) (env : Environment ν), (t.sweep env).CoveredBelow N (t.run env)) ∧
      ∀ (condition body : Term ν) (env : Environment ν),
        (rounds condition body env).CoveredBelow N ((whileLoop condition body).run env) := by
  induction N with
  | zero => exact ⟨fun _ _ => .zero _ _, fun _ _ _ => .zero _ _⟩
  | succ N ih =>
      obtain ⟨ih, ihr⟩ := ih
      have hsweep : ∀ (t : Term ν) (env : Environment ν),
          (t.sweep env).CoveredBelow (N + 1) (t.run env) := by
        intro t env
        cases t with
        | number | boolean | doNothing =>
            rw [run_of_settled rfl, sweep_of_settled rfl]
            exact .pay_left 1 (.refl _ _)
        | var name =>
            rw [run_var, sweep_var]
            exact .pay_left 1 (.bind (.refl _ _) fun v => .pay_right 1 (.refl _ _))
        | binary op left right =>
            rw [run_binary, sweep_binary]
            refine .pay_succ_left (.bind (ih left env) fun l => ?_)
            refine .bind (ih right l.environment) fun r => ?_
            refine .bind (.refl _ _) fun a => .bind (.refl _ _) fun b => ?_
            exact .bind (.refl _ _) fun v => .pay_right 1 (.refl _ _)
        | assign name expression =>
            rw [run_assign, sweep_assign]
            refine .pay_succ_left (.bind (ih expression env) fun s => ?_)
            exact .bind (.refl _ _) fun v => .pay_right 1 (.refl _ _)
        | ifElse condition consequence alternative =>
            rw [run_ifElse, sweep_ifElse]
            refine .pay_succ_left (.bind (ih condition env) fun s => ?_)
            refine .bind (.refl _ _) fun holds => .pay_right 1 ?_
            exact ih (if holds then consequence else alternative) s.environment
        | sequence first second =>
            rw [run_sequence, sweep_sequence]
            refine .pay_succ_left (.bind (ih first env) fun s => ?_)
            exact .bind (.refl _ _) fun _ => .pay_right 1 (ih second s.environment)
        | whileLoop condition body =>
            rw [sweep_whileLoop]
            exact .pay_succ_left (ihr condition body env)
      refine ⟨hsweep, fun condition body env => ?_⟩
      rw [rounds_eq, run_whileLoop]
      refine .pay_right 1 (.bind_of_pos (hsweep condition env) (fun _ _ h => pos_of_sweep h) ?_)
      intro s
      refine .bind (.refl _ _) fun holds => .pay_right 1 (.ite ?_ (.refl _ _))
      refine .bind (ih body s.environment) fun s' => .bind (.refl _ _) fun _ => ?_
      exact .pay_right 1 (ihr condition body s'.environment)

/-- What the steps of a term come to, its sweep comes to, and the other way round. -/
theorem exists_halts_iff_exists_evaluates {t : Term ν} {env : Environment ν}
    {answer : Except (EvalError ν) (State ν)} :
    (∃ k, State.Halts ⟨t, env⟩ k answer) ↔
      ∃ g, t.Evaluates env .unbounded answer ⟨g, none⟩ := by
  refine ⟨fun h => ?_, fun h => ?_⟩
  · obtain ⟨n, h⟩ := h
    exact run_coveredBelow (n + 1) t env (Nat.lt_succ_self n) h
  · obtain ⟨g, h⟩ := h
    exact (sweep_coveredBelow_and (g + 1)).1 t env (Nat.lt_succ_self g) h

theorem exists_run?_iff_exists_halts {t : Term ν} {env : Environment ν} {format : TraceFormat}
    {answer : Except (EvalError ν) (State ν)} :
    (∃ fuel, (Machine.start t env ⟨none, format⟩).run? fuel = some answer) ↔
      ∃ k, State.Halts ⟨t, env⟩ k answer := by
  refine ⟨fun h => ?_, fun h => ?_⟩
  · obtain ⟨fuel, h⟩ := h
    rcases Machine.halts_of_run? h with ⟨limit, hlimit, -⟩ | hhalts
    · cases hlimit
    · exact hhalts
  · obtain ⟨k, h⟩ := h
    obtain ⟨states, hstory⟩ := Machine.exists_story_of_halts
      (m := .start t env ⟨none, format⟩) h fun limit hlimit => by cases hlimit
    exact ⟨_, hstory.run?⟩

theorem exists_limited_run?_iff_exists_halts {t : Term ν} {env : Environment ν}
    {format : TraceFormat} {answer : Except (EvalError ν) (State ν)}
    (hanswer : ∀ limit, answer ≠ .error (.stepLimitExceeded limit)) :
    (∃ limit fuel, (Machine.start t env ⟨some limit, format⟩).run? fuel = some answer) ↔
      ∃ k, State.Halts ⟨t, env⟩ k answer := by
  refine ⟨fun h => ?_, fun h => ?_⟩
  · obtain ⟨limit, fuel, h⟩ := h
    rcases Machine.halts_of_run? h with ⟨limit', -, he⟩ | hhalts
    · exact absurd he (hanswer limit')
    · exact hhalts
  · obtain ⟨k, h⟩ := h
    obtain ⟨states, hstory⟩ := Machine.exists_story_of_halts
      (m := .start t env ⟨some (k + 1), format⟩) h fun limit hlimit => by
        cases hlimit
        show 0 + k < k + 1
        omega
    exact ⟨k + 1, _, hstory.run?⟩

theorem exists_normalForm?_iff_exists_evaluates {t : Term ν} {env : Environment ν}
    {answer : Except (EvalError ν) (State ν)} :
    (∃ rounds, t.normalForm? rounds env = some answer) ↔
      ∃ g, t.Evaluates env .unbounded answer ⟨g, none⟩ := by
  refine ⟨fun h => ?_, fun h => ?_⟩
  · obtain ⟨rounds, h⟩ := h
    rw [normalForm?, Option.map_eq_some_iff] at h
    obtain ⟨⟨answer, m'⟩, h, rfl⟩ := h
    obtain ⟨-, g, -, hg⟩ := Evaluates.unlimited ⟨rounds, h⟩
    exact ⟨g, hg⟩
  · obtain ⟨g, rounds, h⟩ := h
    exact ⟨rounds, by rw [normalForm?, h, Option.map_some]⟩

/-- Without limits, evaluation answers with what the run of steps halts with. -/
theorem exists_normalForm?_iff_exists_halts {t : Term ν} {env : Environment ν}
    {answer : Except (EvalError ν) (State ν)} :
    (∃ rounds, t.normalForm? rounds env = some answer) ↔ ∃ k, State.Halts ⟨t, env⟩ k answer :=
  exists_normalForm?_iff_exists_evaluates.trans exists_halts_iff_exists_evaluates.symm

/-- On any meter, evaluation answers with what the run of steps halts with, unless it has
a limit and runs into that. -/
theorem Evaluates.halts {t : Term ν} {env : Environment ν} {m m' : Meter}
    {answer : Except (EvalError ν) (State ν)} (h : t.Evaluates env m answer m') :
    (∃ limit, m.gasLimit = some limit ∧ answer = .error .gasExhausted) ∨
      ∃ k, State.Halts ⟨t, env⟩ k answer := by
  obtain ⟨gas, _ | limit⟩ := m
  · obtain ⟨-, used, -, hfresh⟩ := h.unlimited
    exact .inr (exists_halts_iff_exists_evaluates.mpr ⟨used, hfresh⟩)
  · rcases Nat.lt_or_ge limit gas with hlt | hle
    · have hspent := (eval_ticksFirst 0 t env).on_spent (Nat.le_of_lt hlt)
      exact .inl ⟨limit, rfl, (h.unique ⟨0, hspent⟩).1⟩
    · rcases h.of_limited hle with ⟨used, -, -, hfresh⟩ | ⟨he, -⟩
      · exact .inr (exists_halts_iff_exists_evaluates.mpr ⟨used, hfresh⟩)
      · exact .inl ⟨limit, rfl, he⟩

/-- Unless that is an error, no limit was run into. -/
theorem Evaluates.halts_ok {t : Term ν} {env : Environment ν} {m m' : Meter} {s : State ν}
    (h : t.Evaluates env m (.ok s) m') : ∃ k, State.Halts ⟨t, env⟩ k (.ok s) := by
  rcases h.halts with ⟨limit, -, he⟩ | hhalts
  · cases he
  · exact hhalts

theorem exists_limited_evaluates_iff {t : Term ν} {env : Environment ν}
    {answer : Except (EvalError ν) (State ν)} (hanswer : answer ≠ .error .gasExhausted) :
    (∃ limit m', t.Evaluates env (.withLimit limit) answer m') ↔
      ∃ g, t.Evaluates env .unbounded answer ⟨g, none⟩ := by
  refine ⟨fun h => ?_, fun h => ?_⟩
  · obtain ⟨limit, m', h⟩ := h
    rcases h.of_limited (Nat.zero_le limit) with ⟨g, -, -, hg⟩ | ⟨he, -⟩
    · exact ⟨g, hg⟩
    · exact absurd he hanswer
  · obtain ⟨g, h⟩ := h
    exact ⟨g, _, h.limited (by omega)⟩

/-- Steps and sweeps agree on every program. An answer that is not about an allowance is
what the machine returns under some step limit if and only if it is what evaluation
returns under some gas limit; and without limits they return the same answer, or both
never end. -/
theorem machine_agrees_with_eval (t : Term ν) (env : Environment ν) (format : TraceFormat) :
    (∀ answer : Except (EvalError ν) (State ν),
      (∀ limit, answer ≠ .error (.stepLimitExceeded limit)) → answer ≠ .error .gasExhausted →
      ((∃ limit fuel, (Machine.start t env ⟨some limit, format⟩).run? fuel = some answer) ↔
        ∃ limit m', t.Evaluates env (.withLimit limit) answer m')) ∧
    (∀ answer, (∃ fuel, (Machine.start t env ⟨none, format⟩).run? fuel = some answer) ↔
      ∃ rounds, t.normalForm? rounds env = some answer) ∧
    ((∀ fuel, (Machine.start t env ⟨none, format⟩).run? fuel = none) ↔
      ∀ rounds, t.normalForm? rounds env = none) := by
  have hunlimited : ∀ answer,
      (∃ fuel, (Machine.start t env ⟨none, format⟩).run? fuel = some answer) ↔
        ∃ rounds, t.normalForm? rounds env = some answer := fun answer =>
    exists_run?_iff_exists_halts.trans
      (exists_halts_iff_exists_evaluates.trans exists_normalForm?_iff_exists_evaluates.symm)
  refine ⟨fun answer hstep hgas => ?_, hunlimited, ?_⟩
  · rw [exists_limited_run?_iff_exists_halts hstep, exists_halts_iff_exists_evaluates,
      exists_limited_evaluates_iff hgas]
  · refine ⟨fun h rounds => ?_, fun h fuel => ?_⟩
    · refine Option.eq_none_iff_forall_ne_some.mpr fun answer hr => ?_
      obtain ⟨fuel, hf⟩ := (hunlimited answer).mpr ⟨rounds, hr⟩
      rw [h fuel] at hf
      cases hf
    · refine Option.eq_none_iff_forall_ne_some.mpr fun answer hf => ?_
      obtain ⟨rounds, hr⟩ := (hunlimited answer).mp ⟨fuel, hf⟩
      rw [h rounds] at hr
      cases hr

end Term

end WhileLang
