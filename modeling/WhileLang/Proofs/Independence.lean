import WhileLang.Proofs.Confinement
import WhileLang.Proofs.Dependence

/-!
# Independent statements commute

If two statements are run one after the other, the second starts where the first has left
off. When the first assigns nothing that the second reads, the second cannot tell: it does
what it would have done from the start, at the same price. When the second assigns
nothing that the first reads, either, the first could as well have been run after it. What
is left is to see that both orders end in the same environment, and that is a comparison
name by name: the two runs of one statement, from the start and from where the other has
left off, leave the same in every name in which their starts agree.

None of this is peculiar to steps or to sweeps. All that is used of a way of running
programs is that it keeps to the names assigned, depends on the names read only, and runs
a sequence by running its parts (`Modular`); both ways are of this kind.
-/

namespace WhileLang

open Environment
open Priced (pay)

variable {ν : Type}

namespace Term

/-- Neither of two statements assigns a name that the other one reads, and there is none
that both assign. -/
structure Independent (a b : Term ν) : Prop where
  notRead : ∀ x ∈ a.namesAssigned, x ∉ b.namesRead
  notAssigned : ∀ x ∈ a.namesAssigned, x ∉ b.namesAssigned
  readsNone : ∀ x ∈ b.namesAssigned, x ∉ a.namesRead

instance (a b : Term ν) : Decidable (Independent a b) :=
  decidable_of_iff
    ((∀ x ∈ a.namesAssigned, x ∉ b.namesRead) ∧ (∀ x ∈ a.namesAssigned, x ∉ b.namesAssigned) ∧
      ∀ x ∈ b.namesAssigned, x ∉ a.namesRead)
    ⟨fun ⟨h, h', h''⟩ => ⟨h, h', h''⟩, fun ⟨h, h', h''⟩ => ⟨h, h', h''⟩⟩

/-- A way of running programs for which what a program does is a matter of the names in it,
and what a sequence does a matter of its two parts. -/
structure Modular (R : Term ν → Environment ν → Priced (EvalError ν) (State ν)) : Prop where
  confines : ∀ {t env n s}, (R t env).Gives n (.ok s) → t.Confines env s
  depends : ∀ {t e₁ e₂ n s₁}, AgreeOn t.namesRead e₁ e₂ → (R t e₁).Gives n (.ok s₁) →
    ∃ s₂, (R t e₂).Gives n (.ok s₂) ∧ InStep e₁ e₂ s₁ s₂
  sequence : ∀ {a b env n s}, (R (.sequence a b) env).Gives n (.ok s) ↔
    ∃ e k l, (R a env).Gives k (.ok ⟨doNothing, e⟩) ∧ (R b e).Gives l (.ok s) ∧ n = k + l + 1

namespace Modular

variable {R : Term ν → Environment ν → Priced (EvalError ν) (State ν)} {a b t : Term ν}
  {env env' e f : Environment ν} {n : Nat} {s : State ν}

/-- If a statement reads none of the names in which two environments differ, it does the same
in both, and leaves no further difference. -/
theorem unaffected (hR : Modular R) {names : List Name} (hread : ∀ x ∈ names, x ∉ t.namesRead)
    (hagree : ∀ x, x ∉ names → e.get? x = f.get? x) (h : (R t e).Gives n (.ok s)) :
    ∃ f', (R t f).Gives n (.ok ⟨s.statement, f'⟩) ∧
      ∀ x, x ∉ names → s.environment.get? x = f'.get? x := by
  have hreads : AgreeOn t.namesRead e f := fun x hx => hagree x fun hmem => hread x hmem hx
  obtain ⟨⟨u, f'⟩, hf, hin⟩ := hR.depends hreads h
  obtain rfl : s.statement = u := hin.statement
  exact ⟨f', hf, fun x hx => hin.environment.get?_eq (hagree x hx)⟩

theorem commutes (hR : Modular R) (hind : Independent a b)
    (h : (R (.sequence a b) env).Gives n (.ok ⟨doNothing, env'⟩)) :
    (R (.sequence b a) env).Gives n (.ok ⟨doNothing, env'⟩) := by
  obtain ⟨e, k, l, ha, hb, rfl⟩ := hR.sequence.mp h
  have hea : ∀ x, x ∉ a.namesAssigned → e.get? x = env.get? x := (hR.confines ha).keepsOthers
  obtain ⟨f, hb', hf⟩ := hR.unaffected hind.notRead hea hb
  have hfb : ∀ x, x ∉ b.namesAssigned → env.get? x = f.get? x :=
    fun x hx => ((hR.confines hb').keepsOthers x hx).symm
  obtain ⟨f', ha', hf'⟩ := hR.unaffected hind.readsNone hfb ha
  have henv : f' = env' := by
    ext1 x
    by_cases hx : x ∈ a.namesAssigned
    · have hxb : x ∉ b.namesAssigned := hind.notAssigned x hx
      exact (hf' x hxb).symm.trans ((hR.confines hb).keepsOthers x hxb).symm
    · exact ((hR.confines ha').keepsOthers x hx).trans (hf x hx).symm
  subst henv
  exact hR.sequence.mpr ⟨f, l, k, hb', ha', by omega⟩

end Modular

variable [Arithmetic ν]

/-- What follows a part that has to leave nothing behind starts from its environment. -/
theorem gives_bind_finished_iff {α : Type} {P : Priced (EvalError ν) (State ν)}
    {Q : Environment ν → Priced (EvalError ν) α} {n : Nat} {a : α} :
    (P >>= fun s => liftM s.statement.finished >>= fun _ => Q s.environment).Gives n (.ok a) ↔
      ∃ e k l, P.Gives k (.ok ⟨doNothing, e⟩) ∧ (Q e).Gives l (.ok a) ∧ n = k + l := by
  rw [Priced.gives_bind_ok_iff]
  constructor
  · intro h
    obtain ⟨⟨t, e⟩, k, l, hP, hQ, hn⟩ := h
    obtain ⟨_, ht, hQ⟩ := Priced.gives_liftM_bind_ok_iff.mp hQ
    obtain rfl : t = doNothing := eq_doNothing_of_finished_eq_ok ht
    exact ⟨e, k, l, hP, hQ, hn⟩
  · intro h
    obtain ⟨e, k, l, hP, hQ, hn⟩ := h
    exact ⟨⟨doNothing, e⟩, k, l, hP, Priced.gives_liftM_bind_ok_iff.mpr ⟨(), rfl, hQ⟩, hn⟩

theorem modular_run : Modular (run (ν := ν)) where
  confines h := confines_after (State.halts_ok_iff.mp h).1
  depends hread h := by
    obtain ⟨answer, h₂, hin⟩ := State.Halts.matches hread (Tracks.refl _ _) h
    cases hin with
    | ok hin => exact ⟨_, h₂, hin⟩
  sequence {a b env n s} := by
    rw [run_sequence]
    refine (gives_bind_finished_iff (Q := fun e => pay 1 >>= fun _ => b.run e)).trans ?_
    simp only [Priced.gives_pay_bind]
    constructor
    · intro h
      obtain ⟨e, k, _, ha, ⟨l, hb, rfl⟩, rfl⟩ := h
      exact ⟨e, k, l, ha, hb, by omega⟩
    · intro h
      obtain ⟨e, k, l, ha, hb, rfl⟩ := h
      exact ⟨e, k, 1 + l, ha, ⟨l, hb, rfl⟩, by omega⟩

theorem modular_sweep : Modular (sweep (ν := ν)) where
  confines h := by
    obtain ⟨k, hk⟩ := exists_halts_iff_exists_evaluates.mpr ⟨_, h⟩
    exact confines_after (State.halts_ok_iff.mp hk).1
  depends hread h := by
    obtain ⟨rounds, h⟩ := h
    obtain ⟨s₂, h₂, hin⟩ := (eval_matches rounds hread (Tracks.refl _ _)).on_ok h
    exact ⟨s₂, ⟨rounds, h₂⟩, hin⟩
  sequence {a b env n s} := by
    rw [sweep_sequence, Priced.gives_pay_bind]
    simp only [gives_bind_finished_iff]
    constructor
    · intro h
      obtain ⟨_, ⟨e, k, l, ha, hb, rfl⟩, rfl⟩ := h
      exact ⟨e, k, l, ha, hb, by omega⟩
    · intro h
      obtain ⟨e, k, l, ha, hb, rfl⟩ := h
      exact ⟨k + l, ⟨e, k, l, ha, hb, rfl⟩, by omega⟩

/-- Independent statements commute. If the one after the other ends with nothing left to do,
so does the other after the one, after as many steps and in the same environment; and the
sweeps of both come to that for the same gas. -/
theorem independent_statements_commute {a b : Term ν} (hind : Independent a b)
    {env env' : Environment ν} {k : Nat}
    (h : State.Halts ⟨.sequence a b, env⟩ k (.ok ⟨doNothing, env'⟩)) :
    State.Halts ⟨.sequence b a, env⟩ k (.ok ⟨doNothing, env'⟩) ∧
      ∃ g, (sequence a b).Evaluates env .unbounded (.ok ⟨doNothing, env'⟩) ⟨g, none⟩ ∧
        (sequence b a).Evaluates env .unbounded (.ok ⟨doNothing, env'⟩) ⟨g, none⟩ := by
  obtain ⟨g, hg⟩ := exists_halts_iff_exists_evaluates.mp ⟨k, h⟩
  exact ⟨modular_run.commutes hind h, g, hg, modular_sweep.commutes hind hg⟩

/-- A loop that counts up to `n` and an assignment that binds another name on the way: either
may come first. -/
theorem loop_commutes_with_assignment :
    let loop : Term Int64 := .whileLoop (.binary .lessThan (.var "i") (.var "n"))
      (.assign "i" (.binary .add (.var "i") (.number 1)))
    let assignment : Term Int64 :=
      .assign "y" (.binary .add (.sequence (.assign "z" (.var "n")) (.var "z")) (.number 4))
    let env : Environment Int64 := .ofList [("i", .number 0), ("n", .number 2)]
    let env' : Environment Int64 :=
      .ofList [("i", .number 2), ("n", .number 2), ("y", .number 6), ("z", .number 2)]
    Independent loop assignment ∧
      State.Halts ⟨.sequence loop assignment, env⟩ 30 (.ok ⟨.doNothing, env'⟩) ∧
      State.Halts ⟨.sequence assignment loop, env⟩ 30 (.ok ⟨.doNothing, env'⟩) := by
  intro loop assignment env env'
  have hind : Independent loop assignment := by decide
  have h : State.Halts ⟨.sequence loop assignment, env⟩ 30 (.ok ⟨.doNothing, env'⟩) :=
    ⟨_, rfl, rfl, rfl⟩
  exact ⟨hind, h, (independent_statements_commute hind h).1⟩

end Term

end WhileLang
