import WhileLang.Proofs.Priced
import WhileLang.Proofs.Ticking

/-!
# Evaluation, construct by construct

The evaluator takes a bound on rounds because it has to be total, and a meter
because it is charged. Neither is of interest to anyone who asks what a term
evaluates to. `sweep` forgets the bound and starts every meter at zero: what a
term evaluates to, priced in gas.

For this to be any use, the constructs must not notice. They do not, because
both halves of a `bind` may be given the larger of their two bounds (`Steady`,
for which evaluation is monotone in the bound), and because the second half is
charged the same from zero as from where the first half left the meter (for
which evaluation only ticks). So `sweep` satisfies one equation for each
construct, and a loop, whose rounds are no term of their own, one for its
rounds.
-/

namespace WhileLang

open Priced (pay)

variable {ν α β : Type}

namespace Metered

/-- Computations that are given more and more rounds, and keep their answers. -/
structure Steady (x : Nat → Metered ν α) : Prop where
  ticking : ∀ n, (x n).Ticking
  extend : ∀ ⦃n k : Nat⦄, n ≤ k → (x n).Extends (x k)

namespace Steady

theorem const {x : Metered ν α} (h : x.Ticking) : Steady fun _ => x :=
  ⟨fun _ => h, fun _ _ _ => .refl x⟩

theorem bind {x : Nat → Metered ν α} {f : Nat → α → Metered ν β} (hx : Steady x)
    (hf : ∀ a, Steady fun n => f n a) : Steady fun n => x n >>= f n :=
  ⟨fun n => .bind (hx.ticking n) fun a => (hf a).ticking n,
    fun _ _ hle => (hx.extend hle).bind fun a => (hf a).extend hle⟩

theorem ite {c : Prop} [Decidable c] {x y : Nat → Metered ν α} (hx : Steady x)
    (hy : Steady y) : Steady fun n => if c then x n else y n := by
  split
  · exact hx
  · exact hy

end Steady

/-- The answers for any number of rounds, on a meter that starts at zero. -/
def total (x : Nat → Metered ν α) : Priced (EvalError ν) α :=
  ⟨fun g answer => ∃ rounds, (x rounds).on .unbounded = some (answer, ⟨g, none⟩)⟩

theorem total_liftM (x : Except (EvalError ν) α) :
    total (fun _ => (liftM x : Metered ν α)) = liftM x := by
  refine Priced.ext fun g answer => ⟨fun h => ?_, fun h => ?_⟩
  · obtain ⟨_, h⟩ := h
    rw [on_liftM] at h
    cases h
    exact ⟨rfl, rfl⟩
  · obtain ⟨rfl, rfl⟩ := h
    exact ⟨0, rfl⟩

theorem total_pure (a : α) : total (fun _ => (pure a : Metered ν α)) = pure a :=
  total_liftM (.ok a)

theorem total_tick : total (fun _ => (tick : Metered ν Unit)) = pay 1 := by
  refine Priced.ext fun g answer => ⟨fun h => ?_, fun h => ?_⟩
  · obtain ⟨_, h⟩ := h
    rw [on_tick] at h
    cases h
    exact ⟨rfl, rfl⟩
  · obtain ⟨rfl, rfl⟩ := h
    exact ⟨0, rfl⟩

theorem total_ite {c : Prop} [Decidable c] (x y : Nat → Metered ν α) :
    total (fun n => if c then x n else y n) = if c then total x else total y := by
  split <;> rfl

/-- Two families that overtake each other have the same answers. -/
theorem total_congr {x y : Nat → Metered ν α} (hxy : ∀ n, ∃ k, (x n).Extends (y k))
    (hyx : ∀ n, ∃ k, (y n).Extends (x k)) : total x = total y := by
  refine Priced.ext fun g answer => ⟨fun h => ?_, fun h => ?_⟩
  · obtain ⟨n, h⟩ := h
    obtain ⟨k, hk⟩ := hxy n
    exact ⟨k, hk h⟩
  · obtain ⟨n, h⟩ := h
    obtain ⟨k, hk⟩ := hyx n
    exact ⟨k, hk h⟩

theorem total_bind {x : Nat → Metered ν α} {f : Nat → α → Metered ν β} (hx : Steady x)
    (hf : ∀ a, Steady fun n => f n a) :
    total (fun n => x n >>= f n) = (total x >>= fun a => total fun n => f n a) := by
  refine Priced.ext fun g answer => ⟨fun h => ?_, fun h => ?_⟩
  · obtain ⟨n, h⟩ := h
    rcases on_bind_eq_some_iff.mp h with ⟨e, he, rfl⟩ | ⟨a, m₁, ha, h⟩
    · exact Priced.Gives.bind_error ⟨n, he⟩
    · obtain ⟨-, k, rfl, -⟩ := (hx.ticking n).on_unlimited ha
      obtain ⟨-, l, hm, hl⟩ := ((hf a).ticking n).on_unlimited h
      obtain rfl : g = 0 + k + l := congrArg Meter.gas hm
      have hl := hl 0
      rw [Nat.zero_add] at ha hl ⊢
      exact Priced.Gives.bind ⟨n, ha⟩ ⟨n, hl⟩
  · rcases h with ⟨e, ⟨n, he⟩, rfl⟩ | ⟨a, k, l, ⟨i, ha⟩, ⟨j, hl⟩, rfl⟩
    · exact ⟨n, on_bind_eq_some_iff.mpr (.inl ⟨e, he, rfl⟩)⟩
    · -- The larger of the two bounds serves both parts.
      have ha := hx.extend (Nat.le_max_left i j) ha
      have hl := (hf a).extend (Nat.le_max_right i j) hl
      obtain ⟨-, l', hm, hshift⟩ := ((hf a).ticking _).on_unlimited hl
      obtain rfl : l = 0 + l' := congrArg Meter.gas hm
      refine ⟨max i j, on_bind_eq_some_iff.mpr (.inr ⟨a, _, ha, ?_⟩)⟩
      rw [Nat.zero_add]
      exact hshift k

theorem total_tick_bind {f : Nat → Metered ν α} (hf : Steady f) :
    total (fun n => tick >>= fun _ => f n) = (pay 1 >>= fun _ => total f) := by
  rw [total_bind (.const .tick) fun _ => hf, total_tick]

theorem total_liftM_bind (x : Except (EvalError ν) α) (f : Nat → α → Metered ν β) :
    total (fun n => (liftM x : Metered ν α) >>= f n) =
      (liftM x >>= fun a => total fun n => f n a) := by
  cases x with
  | error e => exact (total_liftM (.error e)).trans (Priced.liftM_error_bind e _).symm
  | ok a => exact (Priced.pure_bind a fun a => total fun n => f n a).symm

end Metered

open Metered

variable [Arithmetic ν]

namespace Term

theorem eval_steady (t : Term ν) (env : Environment ν) : Steady fun n => t.eval n env :=
  ⟨fun n => (eval_ticksFirst n t env).ticking, fun _ _ hle => eval_mono hle t env⟩

/-- What a term evaluates to, priced in gas. -/
def sweep (t : Term ν) (env : Environment ν) : Priced (EvalError ν) (State ν) :=
  total fun n => t.eval n env

/-- What a loop comes to once it is entered. -/
def rounds (condition body : Term ν) (env : Environment ν) : Priced (EvalError ν) (State ν) :=
  total fun n => iterate (condition.eval n) (body.eval n) n env

/-- No visit is free. -/
theorem pos_of_sweep {t : Term ν} {env : Environment ν} {g : Nat}
    {answer : Except (EvalError ν) (State ν)} (h : (t.sweep env).Gives g answer) : 0 < g := by
  obtain ⟨n, h⟩ := h
  exact (eval_ticksFirst n t env).gas_lt h

theorem sweep_of_settled {t : Term ν} (h : t.isReducible = false) (env : Environment ν) :
    t.sweep env =
      (do
        pay 1
        return ⟨t, env⟩) := by
  cases t with
  | number | boolean | doNothing =>
      exact (total_tick_bind (.const (.result _))).trans
        (bind_congr fun _ => total_pure _)
  | _ => simp [isReducible] at h

theorem sweep_var (name : Name) (env : Environment ν) :
    (var name : Term ν).sweep env =
      (do
        pay 1
        let v ← env.lookup name
        return ⟨ofValue v, env⟩) := by
  have hrest : Steady fun _ => (do
      let v ← env.lookup name
      return ⟨ofValue v, env⟩ : Metered ν (State ν)) :=
    .const (.bind (.lift (env.lookup_ne_gasExhausted name)) fun _ => .result _)
  refine (total_tick_bind hrest).trans (bind_congr fun _ => ?_)
  rw [total_liftM_bind]
  exact bind_congr fun v => total_pure _

theorem sweep_binary (op : Operator) (left right : Term ν) (env : Environment ν) :
    (binary op left right).sweep env =
      (do
        pay 1
        let l ← left.sweep env
        let r ← right.sweep l.environment
        let v ← op.apply (← l.statement.operand) (← r.statement.operand)
        return ⟨ofValue v, r.environment⟩) := by
  have happly (l r : State ν) : Steady fun _ => (do
      let v ← op.apply (← l.statement.operand) (← r.statement.operand)
      return ⟨ofValue v, r.environment⟩ : Metered ν (State ν)) := by
    refine .const (.bind (.lift l.statement.operand_ne_gasExhausted) fun a => ?_)
    refine .bind (.lift r.statement.operand_ne_gasExhausted) fun b => ?_
    exact .bind (.lift (op.apply_ne_gasExhausted a b)) fun _ => .result _
  have hright (l : State ν) := (eval_steady right l.environment).bind (happly l)
  have hleft := (eval_steady left env).bind hright
  refine (total_tick_bind hleft).trans (bind_congr fun _ => ?_)
  refine (total_bind (eval_steady left env) hright).trans (bind_congr fun l => ?_)
  refine (total_bind (eval_steady right _) (happly l)).trans (bind_congr fun r => ?_)
  rw [total_liftM_bind]
  refine bind_congr fun a => ?_
  rw [total_liftM_bind]
  refine bind_congr fun b => ?_
  rw [total_liftM_bind]
  exact bind_congr fun v => total_pure _

theorem sweep_assign (name : Name) (expression : Term ν) (env : Environment ν) :
    (assign name expression).sweep env =
      (do
        pay 1
        let s ← expression.sweep env
        let v ← s.statement.operand
        return ⟨doNothing, s.environment.insert name v⟩) := by
  have hbind (s : State ν) : Steady fun _ => (do
      let v ← s.statement.operand
      return ⟨doNothing, s.environment.insert name v⟩ : Metered ν (State ν)) :=
    .const (.bind (.lift s.statement.operand_ne_gasExhausted) fun _ => .result _)
  have hexpr := (eval_steady expression env).bind hbind
  refine (total_tick_bind hexpr).trans (bind_congr fun _ => ?_)
  refine (total_bind (eval_steady expression env) hbind).trans (bind_congr fun s => ?_)
  rw [total_liftM_bind]
  exact bind_congr fun v => total_pure _

theorem sweep_ifElse (condition consequence alternative : Term ν) (env : Environment ν) :
    (ifElse condition consequence alternative).sweep env =
      (do
        pay 1
        let s ← condition.sweep env
        let holds ← s.statement.truth
        (if holds then consequence else alternative).sweep s.environment) := by
  have hbranch (s : State ν) : Steady fun n => (do
      if ← s.statement.truth then
        consequence.eval n s.environment
      else
        alternative.eval n s.environment : Metered ν (State ν)) := by
    refine .bind (.const (.lift s.statement.truth_ne_gasExhausted)) fun holds => ?_
    exact .ite (eval_steady consequence _) (eval_steady alternative _)
  have hcond := (eval_steady condition env).bind hbranch
  refine (total_tick_bind hcond).trans (bind_congr fun _ => ?_)
  refine (total_bind (eval_steady condition env) hbranch).trans (bind_congr fun s => ?_)
  rw [total_liftM_bind]
  refine bind_congr fun holds => ?_
  cases holds <;> rfl

theorem sweep_sequence (first second : Term ν) (env : Environment ν) :
    (sequence first second).sweep env =
      (do
        pay 1
        let s ← first.sweep env
        s.statement.finished
        second.sweep s.environment) := by
  have hsecond (s : State ν) : Steady fun n => (do
      s.statement.finished
      second.eval n s.environment : Metered ν (State ν)) :=
    .bind (.const (.lift s.statement.finished_ne_gasExhausted)) fun _ => eval_steady second _
  have hfirst := (eval_steady first env).bind hsecond
  refine (total_tick_bind hfirst).trans (bind_congr fun _ => ?_)
  refine (total_bind (eval_steady first env) hsecond).trans (bind_congr fun s => ?_)
  exact total_liftM_bind _ _

/-! ## Loops

A round is charged through its parts only. The bound on rounds counts down in
`iterate` while its two computations keep the full one, so one round of the
evaluator's loop and one round of the equation overtake each other. -/

theorem iterate_steady (condition body : Term ν) (env : Environment ν) :
    Steady fun n => iterate (condition.eval n) (body.eval n) n env :=
  ⟨fun n => ticking_iterate (fun env => ((eval_steady condition env).ticking n))
      (fun env => ((eval_steady body env).ticking n)) n env,
    fun _ _ hle => iterate_mono (eval_mono hle condition) (eval_mono hle body) hle env⟩

theorem sweep_whileLoop (condition body : Term ν) (env : Environment ν) :
    (whileLoop condition body).sweep env =
      (do
        pay 1
        rounds condition body env) :=
  total_tick_bind (iterate_steady condition body env)

theorem rounds_eq (condition body : Term ν) (env : Environment ν) :
    rounds condition body env =
      (do
        let s ← condition.sweep env
        let holds ← s.statement.truth
        if holds then
          let s' ← body.sweep s.environment
          s'.statement.finished
          rounds condition body s'.environment
        else
          return ⟨doNothing, s.environment⟩) := by
  have hnext : rounds condition body env =
      total fun n => iterate (condition.eval n) (body.eval n) (n + 1) env := by
    refine total_congr (fun n => ⟨n, ?_⟩) fun n => ⟨n + 1, ?_⟩
    · exact iterate_mono (fun _ => .refl _) (fun _ => .refl _) (Nat.le_succ n) env
    · exact iterate_mono (eval_mono (Nat.le_succ n) condition) (eval_mono (Nat.le_succ n) body)
        (Nat.le_refl _) env
  have hagain (s : State ν) : Steady fun n => (do
      s.statement.finished
      iterate (condition.eval n) (body.eval n) n s.environment : Metered ν (State ν)) :=
    .bind (.const (.lift s.statement.finished_ne_gasExhausted)) fun _ =>
      iterate_steady condition body s.environment
  have hbody (s : State ν) := (eval_steady body s.environment).bind hagain
  have hleave (s : State ν) : Steady fun _ =>
      (pure ⟨doNothing, s.environment⟩ : Metered ν (State ν)) := .const (.result _)
  have hround (s : State ν) :=
    Steady.bind (.const (.lift s.statement.truth_ne_gasExhausted)) fun holds =>
      Steady.ite (c := holds = true) (hbody s) (hleave s)
  refine hnext.trans ?_
  refine (total_bind (eval_steady condition env) hround).trans (bind_congr fun s => ?_)
  refine (total_liftM_bind _ _).trans (bind_congr fun holds => ?_)
  refine (total_ite _ _).trans ?_
  rw [total_pure, total_bind (eval_steady body s.environment) hagain]
  refine congrArg (fun again => if holds = true then again else _) (bind_congr fun s' => ?_)
  exact total_liftM_bind _ _

end Term

end WhileLang
