import WhileLang.Proofs.Ticking

/-!
# A gas limit only cuts short, and exactly at the limit

Evaluation on a limited meter always ends. Each time a loop is about to go
round, its condition is visited, and that visit is charged; so a loop under a
limit goes round at most as often as there are units left, and a bound on
rounds that exceeds what is left is never reached. `AnswersBelow` states this
with the bound and the remaining gas in one inequality, because that inequality
is what survives in both directions the recursion takes: into the parts of a
term the bound stays and the gas only grows, and round a loop the bound drops
by one and the gas grows by at least one.

What it ends with was settled for every ticking computation already: the
unlimited answer if that stays within the limit, and otherwise exhaustion, with
the meter one past the limit. A meter that starts past its limit is the one
case left, and there the first tick is the last.
-/

namespace WhileLang

variable {ν : Type}

namespace Metered

/-- From every meter within the limit whose remaining gas is less than `rounds`,
the computation answers. -/
def AnswersBelow {α : Type} (limit rounds : Nat) (x : Metered ν α) : Prop :=
  ∀ g, g ≤ limit → limit < g + rounds → (x.on ⟨g, some limit⟩).isSome = true

theorem isSome_on_bind {α β : Type} {x : Metered ν α} {f : α → Metered ν β} {m : Meter}
    (hx : (x.on m).isSome = true)
    (hf : ∀ a m', x.on m = some (.ok a, m') → ((f a).on m').isSome = true) :
    ((x >>= f).on m).isSome = true := by
  rw [on_bind]
  match h : x.on m with
  | none =>
      rw [h] at hx
      cases hx
  | some (.error e, m') => rfl
  | some (.ok a, m') => exact hf a m' h

namespace AnswersBelow

variable {α β : Type} {limit rounds : Nat}

theorem result (a : α) : AnswersBelow limit rounds (pure a : Metered ν α) := by
  intro g _ _
  rw [on_pure]
  rfl

theorem tick : AnswersBelow limit rounds (Metered.tick : Metered ν Unit) := by
  intro g _ _
  rw [on_tick]
  rfl

theorem mono {k : Nat} {x : Metered ν α} (hle : k ≤ rounds)
    (h : AnswersBelow limit rounds x) : AnswersBelow limit k x :=
  fun g hg hlt => h g hg (by omega)

theorem bind {x : Metered ν α} {f : α → Metered ν β} (ht : x.Ticking)
    (hx : AnswersBelow limit rounds x) (hf : ∀ a, AnswersBelow limit rounds (f a)) :
    AnswersBelow limit rounds (x >>= f) := by
  intro g hg hlt
  refine isSome_on_bind (hx g hg hlt) fun a m' ha => ?_
  have hle : g ≤ m'.gas := (ht.on_meter ha).1
  rcases ht.on_limited hg ha with ⟨k, hk, rfl, -⟩ | ⟨he, -⟩
  · have hle : g ≤ k := hle
    exact hf a k hk (by omega)
  · cases he

theorem tick_bind {f : Unit → Metered ν α} (hf : AnswersBelow limit rounds (f ())) :
    AnswersBelow limit rounds (Metered.tick >>= f) :=
  bind .tick tick fun _ => hf

theorem lift_bind (x : Except (EvalError ν) α) {f : α → Metered ν β}
    (hf : ∀ a, AnswersBelow limit rounds (f a)) :
    AnswersBelow limit rounds ((liftM x : Metered ν α) >>= f) := by
  intro g hg hlt
  refine isSome_on_bind rfl fun a m' ha => ?_
  rw [on_liftM] at ha
  cases ha
  exact hf a g hg hlt

/-- What follows a part that was charged for has one round less to its name. -/
theorem bind_of_ticksFirst {x : Metered ν α} {f : α → Metered ν β} (ht : x.TicksFirst)
    (hx : AnswersBelow limit (rounds + 1) x) (hf : ∀ a, AnswersBelow limit rounds (f a)) :
    AnswersBelow limit (rounds + 1) (x >>= f) := by
  intro g hg hlt
  refine isSome_on_bind (hx g hg hlt) fun a m' ha => ?_
  have hgas : g < m'.gas := ht.gas_lt ha
  rcases ht.ticking.on_limited hg ha with ⟨k, hk, rfl, -⟩ | ⟨he, -⟩
  · have hgas : g < k := hgas
    exact hf a k hk (by omega)
  · cases he

theorem ite {c : Prop} [Decidable c] {x y : Metered ν α} (hx : AnswersBelow limit rounds x)
    (hy : AnswersBelow limit rounds y) :
    AnswersBelow limit rounds (if c then x else y) := by
  split
  · exact hx
  · exact hy

end AnswersBelow

variable [Arithmetic ν]

theorem answersBelow_iterate {condition body : Environment ν → Metered ν (State ν)}
    {limit rounds : Nat} (htc : ∀ env, (condition env).TicksFirst)
    (htb : ∀ env, (body env).TicksFirst)
    (hc : ∀ env, AnswersBelow limit rounds (condition env))
    (hb : ∀ env, AnswersBelow limit rounds (body env)) (k : Nat) (hle : k ≤ rounds)
    (env : Environment ν) : AnswersBelow limit k (iterate condition body k env) := by
  induction k generalizing env with
  | zero =>
      intro g hg hlt
      omega
  | succ k ih =>
      -- The rounds count down and those within the parts do not, so `k` has to be apart.
      rw [iterate]
      refine .bind_of_ticksFirst (htc env) ((hc env).mono hle) fun settled => ?_
      refine .lift_bind _ fun holds => ?_
      refine .ite ?_ (.result _)
      refine .bind (htb settled.environment).ticking
        ((hb settled.environment).mono (by omega)) fun after => ?_
      refine .lift_bind _ fun _ => ?_
      exact ih (by omega) after.environment

end Metered

open Metered

variable [Arithmetic ν]

namespace Term

theorem eval_answersBelow (limit rounds : Nat) (t : Term ν) (env : Environment ν) :
    AnswersBelow limit rounds (t.eval rounds env) := by
  induction t generalizing env with
  | number | boolean | doNothing => exact .tick_bind (.result _)
  | var name =>
      refine .tick_bind ?_
      exact .lift_bind _ fun _ => .result _
  | binary op left right ihl ihr =>
      refine .tick_bind ?_
      refine .bind (eval_ticksFirst rounds left env).ticking (ihl env) fun l => ?_
      refine .bind (eval_ticksFirst rounds right _).ticking (ihr l.environment) fun r => ?_
      refine .lift_bind _ fun a => ?_
      refine .lift_bind _ fun b => ?_
      exact .lift_bind _ fun _ => .result _
  | assign name expression ih =>
      refine .tick_bind ?_
      refine .bind (eval_ticksFirst rounds expression env).ticking (ih env) fun settled => ?_
      exact .lift_bind _ fun _ => .result _
  | ifElse condition consequence alternative ihc iht ihe =>
      refine .tick_bind ?_
      refine .bind (eval_ticksFirst rounds condition env).ticking (ihc env) fun settled => ?_
      refine .lift_bind _ fun holds => ?_
      exact .ite (iht settled.environment) (ihe settled.environment)
  | sequence first second ihf ihs =>
      refine .tick_bind ?_
      refine .bind (eval_ticksFirst rounds first env).ticking (ihf env) fun settled => ?_
      refine .lift_bind _ fun _ => ?_
      exact ihs settled.environment
  | whileLoop condition body ihc ihb =>
      refine .tick_bind ?_
      exact answersBelow_iterate (eval_ticksFirst rounds condition)
        (eval_ticksFirst rounds body) ihc ihb rounds (Nat.le_refl rounds) env

/-- Under a limit, evaluation ends. -/
theorem exists_evaluates_of_limit (t : Term ν) (env : Environment ν) (gas limit : Nat) :
    ∃ answer m', t.Evaluates env ⟨gas, some limit⟩ answer m' := by
  rcases Nat.lt_or_ge limit gas with hlt | hle
  · exact ⟨_, _, 0, (eval_ticksFirst 0 t env).on_spent (Nat.le_of_lt hlt)⟩
  · have h := eval_answersBelow limit (limit + 1) t env gas hle (by omega)
    obtain ⟨⟨answer, m'⟩, h⟩ := Option.isSome_iff_exists.mp h
    exact ⟨answer, m', limit + 1, h⟩

theorem Evaluates.of_unbounded {t : Term ν} {env : Environment ν}
    {answer : Except (EvalError ν) (State ν)} {used : Nat}
    (h : t.Evaluates env .unbounded answer ⟨used, none⟩) (gas : Nat) :
    t.Evaluates env ⟨gas, none⟩ answer ⟨gas + used, none⟩ := by
  obtain ⟨rounds, hr⟩ := h
  obtain ⟨-, k, hm, hk⟩ := (eval_ticksFirst rounds t env).ticking.on_unlimited hr
  obtain rfl : used = k := by
    have h := congrArg Meter.gas hm
    simpa using h
  exact ⟨rounds, hk gas⟩

/-- Wherever the meter of an unlimited evaluation stands, the evaluation is that of
a fresh one, and never ends in exhaustion. -/
theorem Evaluates.unlimited {t : Term ν} {env : Environment ν} {gas : Nat} {m' : Meter}
    {answer : Except (EvalError ν) (State ν)} (h : t.Evaluates env ⟨gas, none⟩ answer m') :
    answer ≠ .error .gasExhausted ∧
      ∃ used, m' = ⟨gas + used, none⟩ ∧ t.Evaluates env .unbounded answer ⟨used, none⟩ := by
  obtain ⟨rounds, hr⟩ := h
  obtain ⟨hne, k, rfl, hk⟩ := (eval_ticksFirst rounds t env).ticking.on_unlimited hr
  refine ⟨hne, k, rfl, rounds, ?_⟩
  have h0 := hk 0
  rwa [Nat.zero_add] at h0

theorem Evaluates.limited {t : Term ν} {env : Environment ν} {gas used limit : Nat}
    {answer : Except (EvalError ν) (State ν)}
    (h : t.Evaluates env .unbounded answer ⟨used, none⟩) (hle : gas + used ≤ limit) :
    t.Evaluates env ⟨gas, some limit⟩ answer ⟨gas + used, some limit⟩ := by
  obtain ⟨rounds, hr⟩ := h.of_unbounded gas
  exact ⟨rounds, (eval_ticksFirst rounds t env).ticking.on_limited_of_le hr hle⟩

/-- What a limited evaluation ends with, from a meter within the limit. -/
theorem Evaluates.of_limited {t : Term ν} {env : Environment ν} {gas limit : Nat} {m' : Meter}
    {answer : Except (EvalError ν) (State ν)} (hgas : gas ≤ limit)
    (h : t.Evaluates env ⟨gas, some limit⟩ answer m') :
    (∃ used, gas + used ≤ limit ∧ m' = ⟨gas + used, some limit⟩ ∧
        t.Evaluates env .unbounded answer ⟨used, none⟩) ∨
      (answer = .error .gasExhausted ∧ m' = ⟨limit + 1, some limit⟩) := by
  obtain ⟨rounds, hr⟩ := h
  rcases (eval_ticksFirst rounds t env).ticking.on_limited hgas hr with ⟨k, hk, rfl, hu⟩ | h
  · obtain ⟨-, used, hm, hfresh⟩ := Evaluates.unlimited ⟨rounds, hu⟩
    obtain rfl : k = gas + used := congrArg Meter.gas hm
    exact .inl ⟨used, hk, rfl, hfresh⟩
  · exact .inr h

/-- Evaluation on any limited meter ends. It ends as it would without the limit if
what that takes is still allowed; and in every other case, whether too little is
left, nothing is left, or there is no end without the limit, it ends in exhaustion
with the meter one past the limit, or one further if it was past it already. The
unlimited evaluation never ends in exhaustion. -/
theorem evaluates_under_gasLimit (t : Term ν) (env : Environment ν) (gas limit : Nat) :
    (∃ answer m', t.Evaluates env ⟨gas, some limit⟩ answer m') ∧
    (∀ answer used, t.Evaluates env .unbounded answer ⟨used, none⟩ → gas + used ≤ limit →
      t.Evaluates env ⟨gas, some limit⟩ answer ⟨gas + used, some limit⟩) ∧
    ((¬ ∃ answer used, t.Evaluates env .unbounded answer ⟨used, none⟩ ∧ gas + used ≤ limit) →
      t.Evaluates env ⟨gas, some limit⟩ (.error .gasExhausted)
        ⟨max gas limit + 1, some limit⟩) ∧
    (∀ start answer m', t.Evaluates env ⟨start, none⟩ answer m' →
      answer ≠ .error .gasExhausted ∧
        ∃ used, m' = ⟨start + used, none⟩ ∧
          t.Evaluates env .unbounded answer ⟨used, none⟩) := by
  have hends := exists_evaluates_of_limit t env gas limit
  refine ⟨hends, fun answer used h hle => h.limited hle, fun hno => ?_, fun _ _ _ h => h.unlimited⟩
  rcases Nat.lt_or_ge limit gas with hlt | hle
  · rw [Nat.max_eq_left (Nat.le_of_lt hlt)]
    exact ⟨0, (eval_ticksFirst 0 t env).on_spent (Nat.le_of_lt hlt)⟩
  · rw [Nat.max_eq_right hle]
    obtain ⟨answer, m', h⟩ := hends
    rcases h.of_limited hle with ⟨used, hused, -, hu⟩ | ⟨rfl, rfl⟩
    · exact absurd ⟨answer, used, hu, hused⟩ hno
    · exact h

/-- A sum takes three units. On a meter at seven a limit of ten leaves them, and a limit of
nine does not. A loop without end has no answer on a meter without a limit, and on this one
it ends like the sum. -/
theorem limit_cuts_sum_and_endless_loop :
    let sum : Term Int64 := .binary .add (.var "x") (.number 1)
    let loop : Term Int64 := .whileLoop (.boolean true) .doNothing
    let env : Environment Int64 := Environment.empty.insert "x" (.number 41)
    sum.Evaluates env .unbounded (.ok ⟨.number 42, env⟩) ⟨3, none⟩ ∧
      sum.Evaluates env ⟨7, some 10⟩ (.ok ⟨.number 42, env⟩) ⟨10, some 10⟩ ∧
      sum.Evaluates env ⟨7, some 9⟩ (.error .gasExhausted) ⟨10, some 9⟩ ∧
      (¬ ∃ answer used, loop.Evaluates env .unbounded answer ⟨used, none⟩) ∧
      loop.Evaluates env ⟨7, some 9⟩ (.error .gasExhausted) ⟨10, some 9⟩ := by
  intro sum loop env
  have hsum : sum.Evaluates env .unbounded (.ok ⟨.number 42, env⟩) ⟨3, none⟩ := ⟨0, rfl⟩
  have hendless : ¬ ∃ answer used, loop.Evaluates env .unbounded answer ⟨used, none⟩ := by
    rintro ⟨answer, used, rounds, h⟩
    have hnone : ∀ k gas, (Metered.iterate ((Term.boolean true).eval rounds)
        (Term.doNothing.eval rounds) k env).on ⟨gas, none⟩ = none := by
      intro k
      induction k with
      | zero => exact fun gas => rfl
      | succ k ih => exact fun gas => ih (gas + 1 + 1)
    have h : (Metered.iterate _ _ rounds env).on ⟨1, none⟩ = some (answer, ⟨used, none⟩) := h
    rw [hnone] at h
    cases h
  obtain ⟨-, hroom, -, -⟩ := evaluates_under_gasLimit sum env 7 10
  obtain ⟨-, -, hcut, -⟩ := evaluates_under_gasLimit sum env 7 9
  obtain ⟨-, -, hcut', -⟩ := evaluates_under_gasLimit loop env 7 9
  refine ⟨hsum, hroom _ 3 hsum (by decide), hcut ?_, hendless, hcut' ?_⟩
  · rintro ⟨answer, used, h, hle⟩
    obtain ⟨-, hmeter⟩ := h.unique hsum
    cases hmeter
    omega
  · rintro ⟨answer, used, h, -⟩
    exact hendless ⟨answer, used, h⟩

end Term

end WhileLang
