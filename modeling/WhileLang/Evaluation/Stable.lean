import WhileLang.Evaluation.Basic

/-!
# Evaluation is stable in its rounds

The bound on rounds makes evaluation total and should otherwise not be seen. It is
not, for two reasons given here.

Stability: a bound under which an evaluation answered can be raised and the answer
stays, the meter's reading included. All that has to be known of the single
constructs is that they put computations together with `bind`, which keeps the
relation; the one case with anything in it is the loop, where the rounds that ran
under the smaller bound run alike under the larger.

Determinism follows, since the larger of two bounds answers for both. So "evaluates
to" needs no bound in its statement and still is a partial function.
-/

namespace WhileLang

variable {ν α β : Type}

namespace Metered

/-- The second computation gives every answer that the first one gives. -/
def Extends (x y : Metered ν α) : Prop :=
  ∀ ⦃m : Meter⦄ ⦃answer⦄, x.on m = some answer → y.on m = some answer

theorem Extends.refl (x : Metered ν α) : x.Extends x :=
  fun _ _ h => h

theorem unanswered_extends (x : Metered ν α) : (unanswered : Metered ν α).Extends x := by
  intro m answer h
  rw [on_unanswered] at h
  exact absurd h (by simp)

theorem Extends.bind {x y : Metered ν α} {f g : α → Metered ν β}
    (hxy : x.Extends y) (hfg : ∀ a, (f a).Extends (g a)) :
    (x >>= f).Extends (y >>= g) := by
  intro m answer h
  rw [on_bind] at h ⊢
  cases hx : x.on m with
  | none =>
    rw [hx] at h
    exact absurd h (by simp)
  | some r =>
    rw [hx] at h
    rw [hxy hx]
    obtain ⟨_ | a, m'⟩ := r
    · exact h
    · exact hfg a h

theorem Extends.ite {c : Prop} [Decidable c] {x y x' y' : Metered ν α}
    (h : x.Extends y) (h' : x'.Extends y') :
    (if c then x else x').Extends (if c then y else y') := by
  split
  · exact h
  · exact h'

variable [Arithmetic ν]

theorem iterate_mono {condition body condition' body' : Environment ν → Metered ν (State ν)}
    (hc : ∀ env, (condition env).Extends (condition' env))
    (hb : ∀ env, (body env).Extends (body' env))
    {n k : Nat} (hle : n ≤ k) (env : Environment ν) :
    (iterate condition body n env).Extends (iterate condition' body' k env) := by
  induction n generalizing k env with
  | zero => exact unanswered_extends _
  | succ n ih =>
    cases k with
    | zero => exact absurd hle (by omega)
    | succ k =>
      rw [iterate, iterate]
      refine (hc env).bind fun settled => (Extends.refl _).bind fun holds => ?_
      refine Extends.ite ?_ (Extends.refl _)
      refine (hb settled.environment).bind fun after => (Extends.refl _).bind fun _ => ?_
      exact ih (by omega) after.environment

end Metered

variable [Arithmetic ν]

namespace Term

/-- More rounds keep every answer. -/
theorem eval_mono {n k : Nat} (hle : n ≤ k) (t : Term ν) (env : Environment ν) :
    (t.eval n env).Extends (t.eval k env) := by
  induction t generalizing env with
  | number | boolean | doNothing | var => exact .refl _
  | binary op left right ihl ihr =>
    exact (Metered.Extends.refl _).bind fun _ => (ihl env).bind fun l =>
      (ihr l.environment).bind fun _ => .refl _
  | assign name expression ih =>
    exact (Metered.Extends.refl _).bind fun _ => (ih env).bind fun _ => .refl _
  | ifElse condition consequence alternative ihc iht ihe =>
    refine (Metered.Extends.refl _).bind fun _ => (ihc env).bind fun settled => ?_
    exact (Metered.Extends.refl _).bind fun _ =>
      .ite (iht settled.environment) (ihe settled.environment)
  | sequence first second ihf ihs =>
    refine (Metered.Extends.refl _).bind fun _ => (ihf env).bind fun settled => ?_
    exact (Metered.Extends.refl _).bind fun _ => ihs settled.environment
  | whileLoop condition body ihc ihb =>
    exact (Metered.Extends.refl _).bind fun _ => Metered.iterate_mono ihc ihb hle env

/-- On this meter, evaluation answers with this and leaves the meter there. -/
def Evaluates (t : Term ν) (env : Environment ν) (m : Meter)
    (answer : Except (EvalError ν) (State ν)) (m' : Meter) : Prop :=
  ∃ rounds, (t.eval rounds env).on m = some (answer, m')

theorem Evaluates.unique {t : Term ν} {env : Environment ν} {m m₁ m₂ : Meter}
    {answer₁ answer₂ : Except (EvalError ν) (State ν)}
    (h₁ : t.Evaluates env m answer₁ m₁) (h₂ : t.Evaluates env m answer₂ m₂) :
    answer₁ = answer₂ ∧ m₁ = m₂ := by
  obtain ⟨n, hn⟩ := h₁
  obtain ⟨k, hk⟩ := h₂
  have hn := eval_mono (Nat.le_max_left n k) t env hn
  have hk := eval_mono (Nat.le_max_right n k) t env hk
  rw [hn] at hk
  exact Prod.mk.inj (Option.some.inj hk)

end Term

end WhileLang
