import WhileLang.Proofs.Position
import WhileLang.Proofs.Sweep

/-!
# The rate between steps and gas

Steps and gas count different things. A visit of a settled part costs gas and no step;
a loop costs steps in every round for which there is no gas, because what they pay for
is not a visit: unrolling it, choosing the branch and dropping the finished body. All
the same neither can run far ahead of the other: two steps never cost less than they
would at five a unit, and a unit of gas of an evaluation that ends well is backed by
half a step.

As they stand these bounds do not add up. Where two parts are run one after the other
each brings its own constant, and the step that puts their results together brings
none. `Converts` therefore carries the constants along: what is left of the gas above
the rate, and what the gas may exceed the steps by. A payment on either side moves
them, and a part that was run uses up the constants of a whole term. So in a proof
they are read from the outside inwards, and what is left in the innermost place has to
be enough for nothing at all. The round of a loop is where they are tight.
-/

namespace WhileLang

open Priced (pay)

namespace Priced

variable {ε α β : Type}

/-- Every answer that the first gives for `n`, if that is less than `N`, the second gives
for a `g` that pays for `n` and has `spare` to spare; and if the answer is a result, `g`
is at most twice `n` and `excess`. -/
def Converts (N : Nat) (spare excess : Int) (P Q : Priced ε α) : Prop :=
  ∀ ⦃n answer⦄, n < N → P.Gives n answer → ∃ g, Q.Gives g answer ∧
    2 * (n : Int) + spare ≤ 5 * (g : Int) ∧
      (answer.isOk = true → (g : Int) ≤ 2 * (n : Int) + excess)

namespace Converts

variable {N : Nat} {c e : Int} {P P' : Priced ε α}

theorem zero (c e : Int) (P P' : Priced ε α) : P.Converts 0 c e P' :=
  fun n _ hn _ => absurd hn (Nat.not_lt_zero n)

theorem mono {c' e' : Int} (hc : c ≤ c') (he : e' ≤ e) (h : P.Converts N c' e' P') :
    P.Converts N c e P' := by
  intro n answer hn hP
  obtain ⟨g, hg, hlow, hhigh⟩ := h hn hP
  refine ⟨g, hg, by omega, fun hok => ?_⟩
  have hg := hhigh hok
  omega

/-- Where nothing is paid, nothing may be owed. -/
theorem result (hc : c ≤ 0) (he : 0 ≤ e) (a : α) :
    (pure a : Priced ε α).Converts N c e (pure a) := by
  rintro n answer - ⟨rfl, rfl⟩
  refine ⟨0, ⟨rfl, rfl⟩, by omega, fun _ => by omega⟩

theorem lift_bind (hc : c ≤ 0) {x : Except ε β} {Q Q' : β → Priced ε α}
    (h : ∀ b, (Q b).Converts N c e (Q' b)) :
    Priced.Converts N c e (liftM x >>= Q) (liftM x >>= Q') := by
  cases x with
  | error err =>
      rw [liftM_error_bind, liftM_error_bind]
      rintro n answer - ⟨rfl, rfl⟩
      refine ⟨0, ⟨rfl, rfl⟩, by omega, fun hok => ?_⟩
      cases hok
  | ok b =>
      rw [liftM_ok, Priced.pure_bind, Priced.pure_bind]
      exact h b

/-- A part that converts as a whole term does takes the constants of a term with it. -/
theorem bind (hc : c ≤ 3) {P P' : Priced ε β} {Q Q' : β → Priced ε α}
    (hP : P.Converts N 3 1 P') (hQ : ∀ b, (Q b).Converts N (c - 3) (e - 1) (Q' b)) :
    (P >>= Q).Converts N c e (P' >>= Q') := by
  intro n answer hn h
  rcases h with ⟨err, herr, rfl⟩ | ⟨b, k, l, hb, hl, rfl⟩
  · obtain ⟨g, hg, hlow, -⟩ := hP hn herr
    refine ⟨g, hg.bind_error, by omega, fun hok => ?_⟩
    cases hok
  · obtain ⟨g, hg, hlow, hhigh⟩ := hP (by omega) hb
    obtain ⟨g', hg', hlow', hhigh'⟩ := hQ b (by omega) hl
    have hhigh := hhigh rfl
    refine ⟨g + g', hg.bind hg', by omega, fun hok => ?_⟩
    have hhigh' := hhigh' hok
    omega

theorem ite {b : Prop} [Decidable b] {Q Q' : Priced ε α} (h : P.Converts N c e P')
    (h' : Q.Converts N c e Q') :
    (if b then P else Q).Converts N c e (if b then P' else Q') := by
  split
  · exact h
  · exact h'

theorem pay_left {Q : Unit → Priced ε α} (h : (Q ()).Converts N (c + 2) (e + 2) P') :
    (pay 1 >>= Q).Converts N c e P' := by
  intro n answer hn hQ
  obtain ⟨l, hl, rfl⟩ := gives_pay_bind.mp hQ
  obtain ⟨g, hg, hlow, hhigh⟩ := h (by omega) hl
  refine ⟨g, hg, by omega, fun hok => ?_⟩
  have hhigh := hhigh hok
  omega

/-- The step that was paid lowers the bound for the rest. -/
theorem pay_succ_left {Q : Unit → Priced ε α} (h : (Q ()).Converts N (c + 2) (e + 2) P') :
    (pay 1 >>= Q).Converts (N + 1) c e P' := by
  intro n answer hn hQ
  obtain ⟨l, hl, rfl⟩ := gives_pay_bind.mp hQ
  obtain ⟨g, hg, hlow, hhigh⟩ := h (by omega) hl
  refine ⟨g, hg, by omega, fun hok => ?_⟩
  have hhigh := hhigh hok
  omega

theorem pay_right {Q : Unit → Priced ε α} (h : P.Converts N (c - 5) (e - 1) (Q ())) :
    P.Converts N c e (pay 1 >>= Q) := by
  intro n answer hn hP
  obtain ⟨g, hg, hlow, hhigh⟩ := h hn hP
  refine ⟨1 + g, gives_pay_bind.mpr ⟨g, hg, rfl⟩, by omega, fun hok => ?_⟩
  have hhigh := hhigh hok
  omega

theorem of_pay_right {Q : Unit → Priced ε α} (h : P.Converts N c e (pay 1 >>= Q)) :
    P.Converts N (c - 5) (e - 1) (Q ()) := by
  intro n answer hn hP
  obtain ⟨i, hi, hlow, hhigh⟩ := h hn hP
  obtain ⟨g, hg, rfl⟩ := gives_pay_bind.mp hi
  refine ⟨g, hg, by omega, fun hok => ?_⟩
  have hhigh := hhigh hok
  omega

end Converts

end Priced

open Priced

variable {ν : Type} [Arithmetic ν]

/-- The steps of a term convert to its gas. -/
theorem Term.run_converts (N : Nat) (t : Term ν) (env : Environment ν) :
    (t.run env).Converts N 3 1 (t.sweep env) := by
  induction N generalizing t env with
  | zero => exact .zero 3 1 _ _
  | succ N ih =>
      induction t generalizing env with
      | number | boolean | doNothing =>
          rw [run_of_settled rfl, sweep_of_settled rfl]
          exact .pay_right (.result (by decide) (by decide) _)
      | var name =>
          rw [run_var, sweep_var]
          refine .pay_right (.lift_bind (by decide) fun v => ?_)
          exact .pay_left (.result (by decide) (by decide) _)
      | binary op left right ihl ihr =>
          rw [run_binary, sweep_binary]
          refine .pay_right (.bind (by decide) (ihl env) fun l => ?_)
          refine .bind (by decide) (ihr l.environment) fun r => ?_
          refine .lift_bind (by decide) fun a => .lift_bind (by decide) fun b => ?_
          refine .lift_bind (by decide) fun v => ?_
          exact .pay_left (.result (by decide) (by decide) _)
      | assign name expression ihe =>
          rw [run_assign, sweep_assign]
          refine .pay_right (.bind (by decide) (ihe env) fun s => ?_)
          refine .lift_bind (by decide) fun v => ?_
          exact .pay_left (.result (by decide) (by decide) _)
      | ifElse condition consequence alternative ihc iht ihe =>
          rw [run_ifElse, sweep_ifElse]
          refine .pay_right (.bind (by decide) (ihc env) fun s => ?_)
          refine .lift_bind (by decide) fun holds => .pay_left ?_
          cases holds with
          | true => exact .mono (by decide) (by decide) (iht s.environment)
          | false => exact .mono (by decide) (by decide) (ihe s.environment)
      | sequence first second ihf ihs =>
          rw [run_sequence, sweep_sequence]
          refine .pay_right (.bind (by decide) (ihf env) fun s => ?_)
          refine .lift_bind (by decide) fun _ => .pay_left ?_
          exact .mono (by decide) (by decide) (ihs s.environment)
      | whileLoop condition body ihc ihb =>
          -- The next round is the same loop, so only the price paid makes this an induction.
          rw [run_whileLoop, sweep_whileLoop]
          refine .pay_right (.pay_succ_left ?_)
          rw [rounds_eq]
          refine .bind (by decide) (ih condition env) fun s => ?_
          refine .lift_bind (by decide) fun holds => .pay_left ?_
          refine .ite ?_ (.result (by decide) (by decide) _)
          refine .bind (by decide) (ih body s.environment) fun s' => ?_
          refine .lift_bind (by decide) fun _ => .pay_left ?_
          have hloop := ih (whileLoop condition body) s'.environment
          rw [sweep_whileLoop] at hloop
          exact .mono (by decide) (by decide) hloop.of_pay_right

end WhileLang
