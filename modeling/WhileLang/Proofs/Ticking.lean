import WhileLang.Evaluation.Stable

/-!
# Nothing but ticks

A metered computation could do anything with its meter: read it, reset it,
lower the limit. Evaluation does none of that. It is put together from
questions about values, ticks, and loops that were cut short, and `Ticking`
says so. What the meter does to an evaluation then follows from what it does
to a tick, by induction over how the computation was put together.

Without a limit the charge depends on the computation alone and not on where
the meter stood (`on_unlimited`). With one, the two runs agree until the unit
that breaks the limit, and there the limited run ends, one above the limit
(`on_limited_of_le`, `on_limited`). Whether the limited run ends at all is
another matter, and not one for these lemmas: a loop that was cut short is not
the meter's doing.
-/

namespace WhileLang

variable {ν : Type}

namespace Metered

/-- A computation that touches its meter by ticking only. -/
inductive Ticking : {α : Type} → Metered ν α → Prop where
  | result {α : Type} (a : α) : Ticking (pure a)
  | lift {α : Type} {x : Except (EvalError ν) α} (h : x ≠ .error .gasExhausted) :
      Ticking (liftM x)
  | tick : Ticking tick
  | unanswered {α : Type} : Ticking (unanswered : Metered ν α)
  | bind {α β : Type} {x : Metered ν α} {f : α → Metered ν β} (hx : Ticking x)
      (hf : ∀ a, Ticking (f a)) : Ticking (x >>= f)

theorem on_bind_eq_some_iff {α β : Type} {x : Metered ν α} {f : α → Metered ν β} {m m' : Meter}
    {answer : Except (EvalError ν) β} :
    (x >>= f).on m = some (answer, m') ↔
      (∃ e, x.on m = some (.error e, m') ∧ answer = .error e) ∨
        ∃ a m₁, x.on m = some (.ok a, m₁) ∧ (f a).on m₁ = some (answer, m') := by
  rw [on_bind]
  match hx : x.on m with
  | none => simp
  | some (.error e, m₁) =>
      simp only [Option.some.injEq, Prod.mk.injEq, Except.error.injEq, reduceCtorEq, false_and,
        exists_false, or_false]
      refine ⟨fun h => ⟨e, ⟨rfl, h.2⟩, h.1.symm⟩, fun h => ?_⟩
      obtain ⟨e', ⟨rfl, rfl⟩, rfl⟩ := h
      exact ⟨rfl, rfl⟩
  | some (.ok a, m₁) =>
      simp only [Option.some.injEq, Prod.mk.injEq, Except.ok.injEq, reduceCtorEq, false_and,
        exists_false, false_or]
      refine ⟨fun h => ⟨a, m₁, ⟨rfl, rfl⟩, h⟩, fun h => ?_⟩
      obtain ⟨a', m₂, ⟨rfl, rfl⟩, h⟩ := h
      exact h

namespace Ticking

/-- The meter counts up and keeps its limit. -/
theorem on_meter {α : Type} {x : Metered ν α} (h : x.Ticking) {m m' : Meter}
    {answer : Except (EvalError ν) α} (hx : x.on m = some (answer, m')) :
    m.gas ≤ m'.gas ∧ m'.gasLimit = m.gasLimit := by
  induction h generalizing m m' with
  | result a =>
      rw [on_pure] at hx
      cases hx
      exact ⟨Nat.le_refl _, rfl⟩
  | lift hne =>
      rw [on_liftM] at hx
      cases hx
      exact ⟨Nat.le_refl _, rfl⟩
  | tick =>
      rw [on_tick] at hx
      cases hx
      exact ⟨Nat.le_succ _, rfl⟩
  | unanswered =>
      rw [on_unanswered] at hx
      cases hx
  | bind _ _ ihx ihf =>
      rcases on_bind_eq_some_iff.mp hx with ⟨e, he, rfl⟩ | ⟨a, m₁, ha, hf⟩
      · exact ihx he
      · have h₁ := ihx ha
        have h₂ := ihf a hf
        exact ⟨Nat.le_trans h₁.1 h₂.1, h₂.2.trans h₁.2⟩

theorem ite {α : Type} {c : Prop} [Decidable c] {x y : Metered ν α} (hx : x.Ticking)
    (hy : y.Ticking) : (if c then x else y).Ticking := by
  split
  · exact hx
  · exact hy

/-- Without a limit the charge is the same from wherever the meter starts, and the
answer is never that the gas is exhausted. -/
theorem on_unlimited {α : Type} {x : Metered ν α} (h : x.Ticking) {g : Nat} {m' : Meter}
    {answer : Except (EvalError ν) α} (hx : x.on ⟨g, none⟩ = some (answer, m')) :
    answer ≠ .error .gasExhausted ∧ ∃ k, m' = ⟨g + k, none⟩ ∧
      ∀ g', x.on ⟨g', none⟩ = some (answer, ⟨g' + k, none⟩) := by
  induction h generalizing g m' with
  | result a =>
      rw [on_pure] at hx
      cases hx
      exact ⟨by simp, 0, rfl, fun g' => rfl⟩
  | lift hne =>
      rw [on_liftM] at hx
      cases hx
      exact ⟨hne, 0, rfl, fun g' => rfl⟩
  | tick =>
      rw [on_tick] at hx
      cases hx
      exact ⟨by simp [Meter.isExhausted, Meter.charge], 1, rfl, fun g' => rfl⟩
  | unanswered =>
      rw [on_unanswered] at hx
      cases hx
  | bind _ _ ihx ihf =>
      rcases on_bind_eq_some_iff.mp hx with ⟨e, he, rfl⟩ | ⟨a, m₁, ha, hf⟩
      · obtain ⟨hne, k, rfl, hk⟩ := ihx he
        refine ⟨fun h => hne (by cases h; rfl), k, rfl, fun g' => ?_⟩
        exact on_bind_eq_some_iff.mpr (.inl ⟨e, hk g', rfl⟩)
      · obtain ⟨-, k, rfl, hk⟩ := ihx ha
        obtain ⟨hne, l, rfl, hl⟩ := ihf a hf
        refine ⟨hne, k + l, by rw [Nat.add_assoc], fun g' => ?_⟩
        rw [← Nat.add_assoc]
        exact on_bind_eq_some_iff.mpr (.inr ⟨a, _, hk g', hl (g' + k)⟩)

/-- An answer that stays within the limit is not changed by it. -/
theorem on_limited_of_le {α : Type} {x : Metered ν α} (h : x.Ticking) {g k limit : Nat}
    {answer : Except (EvalError ν) α} (hx : x.on ⟨g, none⟩ = some (answer, ⟨k, none⟩))
    (hk : k ≤ limit) : x.on ⟨g, some limit⟩ = some (answer, ⟨k, some limit⟩) := by
  induction h generalizing g k with
  | result a =>
      rw [on_pure] at hx ⊢
      cases hx
      rfl
  | lift hne =>
      rw [on_liftM] at hx ⊢
      cases hx
      rfl
  | tick =>
      rw [on_tick] at hx ⊢
      cases hx
      have hle : ¬ limit < g + 1 := Nat.not_lt.mpr hk
      simp [Meter.isExhausted, Meter.charge, hle]
  | unanswered =>
      rw [on_unanswered] at hx
      cases hx
  | bind hx' hf' ihx ihf =>
      rcases on_bind_eq_some_iff.mp hx with ⟨e, he, rfl⟩ | ⟨a, m₁, ha, hf⟩
      · exact on_bind_eq_some_iff.mpr (.inl ⟨e, ihx he hk, rfl⟩)
      · obtain ⟨-, i, rfl, -⟩ := hx'.on_unlimited ha
        have hle : g + i ≤ k := ((hf' a).on_meter hf).1
        refine on_bind_eq_some_iff.mpr (.inr ⟨a, _, ihx ha (by omega), ?_⟩)
        exact ihf a hf hk

/-- A limited run from within the limit either stays there and is the unlimited
run, or ends with the unit that breaks the limit. -/
theorem on_limited {α : Type} {x : Metered ν α} (h : x.Ticking) {g limit : Nat} {m' : Meter}
    {answer : Except (EvalError ν) α} (hg : g ≤ limit)
    (hx : x.on ⟨g, some limit⟩ = some (answer, m')) :
    (∃ k, k ≤ limit ∧ m' = ⟨k, some limit⟩ ∧ x.on ⟨g, none⟩ = some (answer, ⟨k, none⟩)) ∨
      (answer = .error .gasExhausted ∧ m' = ⟨limit + 1, some limit⟩) := by
  induction h generalizing g m' with
  | result a =>
      rw [on_pure] at hx
      cases hx
      exact .inl ⟨g, hg, rfl, rfl⟩
  | lift hne =>
      rw [on_liftM] at hx
      cases hx
      exact .inl ⟨g, hg, rfl, rfl⟩
  | tick =>
      rw [on_tick] at hx
      cases hx
      rcases Nat.lt_or_ge g limit with hlt | hge
      · have hle : ¬ limit < g + 1 := by omega
        exact .inl ⟨g + 1, hlt, rfl, by simp [Meter.isExhausted, Meter.charge, hle]⟩
      · obtain rfl : g = limit := Nat.le_antisymm hg hge
        exact .inr ⟨by simp [Meter.isExhausted, Meter.charge], rfl⟩
  | unanswered =>
      rw [on_unanswered] at hx
      cases hx
  | bind _ _ ihx ihf =>
      rcases on_bind_eq_some_iff.mp hx with ⟨e, he, rfl⟩ | ⟨a, m₁, ha, hf⟩
      · rcases ihx hg he with ⟨k, hk, rfl, hu⟩ | ⟨hex, rfl⟩
        · exact .inl ⟨k, hk, rfl, on_bind_eq_some_iff.mpr (.inl ⟨e, hu, rfl⟩)⟩
        · cases hex
          exact .inr ⟨rfl, rfl⟩
      · rcases ihx hg ha with ⟨k, hk, rfl, hu⟩ | ⟨hex, -⟩
        · rcases ihf a hk hf with ⟨l, hl, rfl, hu'⟩ | hex
          · exact .inl ⟨l, hl, rfl, on_bind_eq_some_iff.mpr (.inr ⟨a, _, hu, hu'⟩)⟩
          · exact .inr hex
        · cases hex

end Ticking

/-- A ticking computation that begins with a tick, and so is never free. -/
def TicksFirst {α : Type} (x : Metered ν α) : Prop :=
  ∃ f : Unit → Metered ν α, (∀ u, (f u).Ticking) ∧ x = tick >>= f

namespace TicksFirst

variable {α : Type} {x : Metered ν α}

theorem ticking (h : x.TicksFirst) : x.Ticking := by
  obtain ⟨f, hf, rfl⟩ := h
  exact .bind .tick hf

theorem gas_lt (h : x.TicksFirst) {m m' : Meter} {answer : Except (EvalError ν) α}
    (hx : x.on m = some (answer, m')) : m.gas < m'.gas := by
  obtain ⟨f, hf, rfl⟩ := h
  have hle : m.charge.gas ≤ m'.gas := by
    rcases on_bind_eq_some_iff.mp hx with ⟨e, he, -⟩ | ⟨a, m₁, ha, hf'⟩
    · obtain ⟨-, rfl⟩ := Prod.mk.inj (Option.some.inj he)
      exact Nat.le_refl _
    · obtain ⟨-, rfl⟩ := Prod.mk.inj (Option.some.inj ha)
      exact ((hf a).on_meter hf').1
  exact hle

/-- A meter that has used up its limit ends the computation at once. -/
theorem on_spent (h : x.TicksFirst) {g limit : Nat} (hg : limit ≤ g) :
    x.on ⟨g, some limit⟩ = some (.error .gasExhausted, ⟨g + 1, some limit⟩) := by
  obtain ⟨f, -, rfl⟩ := h
  have hlt : limit < g + 1 := Nat.lt_succ_of_le hg
  have htick : (tick : Metered ν Unit).on ⟨g, some limit⟩ =
      some (.error .gasExhausted, ⟨g + 1, some limit⟩) := by
    rw [on_tick]
    simp [Meter.isExhausted, Meter.charge, hlt]
  exact on_bind_eq_some_iff.mpr (.inl ⟨_, htick, rfl⟩)

end TicksFirst

end Metered

/-! ## Evaluation ticks

The questions asked of settled terms have errors of their own, and running out of
gas is none of them. -/

theorem Environment.lookup_ne_gasExhausted (env : Environment ν) (name : Name) :
    env.lookup name ≠ .error .gasExhausted := by
  rw [Environment.lookup]
  cases env.get? name <;> simp

variable [Arithmetic ν]

theorem Term.operand_ne_gasExhausted (t : Term ν) : t.operand ≠ .error .gasExhausted := by
  rw [Term.operand]
  cases t.value? <;> simp

theorem Term.truth_ne_gasExhausted (t : Term ν) : t.truth ≠ .error .gasExhausted := by
  cases t <;> simp [Term.truth]

theorem Term.finished_ne_gasExhausted (t : Term ν) : t.finished ≠ .error .gasExhausted := by
  cases t <;> simp [Term.finished, Term.irreducible]

theorem Operator.apply_ne_gasExhausted (op : Operator) (left right : Value ν) :
    op.apply left right ≠ .error .gasExhausted := by
  rw [Operator.apply.eq_def]
  repeat' split
  all_goals simp

open Metered

theorem Metered.ticking_iterate {condition body : Environment ν → Metered ν (State ν)}
    (hc : ∀ env, (condition env).Ticking) (hb : ∀ env, (body env).Ticking) (rounds : Nat)
    (env : Environment ν) : (iterate condition body rounds env).Ticking := by
  induction rounds generalizing env with
  | zero => exact .unanswered
  | succ rounds ih =>
      rw [iterate]
      refine .bind (hc env) fun settled => ?_
      refine .bind (.lift settled.statement.truth_ne_gasExhausted) fun holds => ?_
      refine .ite ?_ (.result _)
      refine .bind (hb settled.environment) fun after => ?_
      exact .bind (.lift after.statement.finished_ne_gasExhausted) fun _ => ih after.environment

/-- Every visit of a term begins with its tick. -/
theorem Term.eval_ticksFirst (rounds : Nat) (t : Term ν) (env : Environment ν) :
    (t.eval rounds env).TicksFirst := by
  induction t generalizing env with
  | number | boolean | doNothing => exact ⟨_, fun _ => .result _, rfl⟩
  | var name =>
      refine ⟨_, fun _ => ?_, rfl⟩
      exact .bind (.lift (env.lookup_ne_gasExhausted name)) fun _ => .result _
  | binary op left right ihl ihr =>
      refine ⟨_, fun _ => ?_, rfl⟩
      refine .bind (ihl env).ticking fun l => .bind (ihr l.environment).ticking fun r => ?_
      refine .bind (.lift l.statement.operand_ne_gasExhausted) fun a => ?_
      refine .bind (.lift r.statement.operand_ne_gasExhausted) fun b => ?_
      exact .bind (.lift (op.apply_ne_gasExhausted a b)) fun _ => .result _
  | assign name expression ih =>
      refine ⟨_, fun _ => .bind (ih env).ticking fun settled => ?_, rfl⟩
      exact .bind (.lift settled.statement.operand_ne_gasExhausted) fun _ => .result _
  | ifElse condition consequence alternative ihc iht ihe =>
      refine ⟨_, fun _ => .bind (ihc env).ticking fun settled => ?_, rfl⟩
      refine .bind (.lift settled.statement.truth_ne_gasExhausted) fun holds => ?_
      exact .ite (iht settled.environment).ticking (ihe settled.environment).ticking
  | sequence first second ihf ihs =>
      refine ⟨_, fun _ => .bind (ihf env).ticking fun settled => ?_, rfl⟩
      refine .bind (.lift settled.statement.finished_ne_gasExhausted) fun _ => ?_
      exact (ihs settled.environment).ticking
  | whileLoop condition body ihc ihb =>
      refine ⟨_, fun _ => ?_, rfl⟩
      exact ticking_iterate (fun env => (ihc env).ticking) (fun env => (ihb env).ticking)
        rounds env

end WhileLang
