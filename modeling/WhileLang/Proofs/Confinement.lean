import WhileLang.Proofs.Agreement
import WhileLang.Proofs.Fault
import WhileLang.Proofs.Names

/-!
# Evaluation is confined to the names assigned

A program has no way to unbind a name, and no way to bind one that no assignment in it
is to. Both are seen from what a single step can do to the environment. For a run it is
needed besides that the names of the statement do not grow on the way, or a later step
could do what the first could not; so `Confines` says all this of the state that a run
has come to, and is carried from one state to the next (`Confines.trans`).

Since bindings are never lost, a name that is found unbound late was unbound from the
start. So only the text of a program and the names bound at its start decide whether it
can fail in that way.
-/

namespace WhileLang

variable {ν : Type}

namespace Term

/-- What evaluation of a term may have come to: all that was bound still is, names that
the term does not assign to are as they were, and the statement holds no new names. -/
structure Confines (t : Term ν) (env : Environment ν) (s : State ν) : Prop where
  keepsBound : ∀ x, env.contains x = true → s.environment.contains x = true
  keepsOthers : ∀ x, x ∉ t.namesAssigned → s.environment.get? x = env.get? x
  assigned : s.statement.namesAssigned ⊆ t.namesAssigned
  read : s.statement.namesRead ⊆ t.namesRead

namespace Confines

theorem refl (t : Term ν) (env : Environment ν) : t.Confines env ⟨t, env⟩ :=
  ⟨fun _ h => h, fun _ _ => rfl, List.Subset.refl _, List.Subset.refl _⟩

theorem trans {t : Term ν} {env : Environment ν} {s s' : State ν} (h : t.Confines env s)
    (h' : s.statement.Confines s.environment s') : t.Confines env s' where
  keepsBound x hx := h'.keepsBound x (h.keepsBound x hx)
  keepsOthers x hx :=
    (h'.keepsOthers x fun hmem => hx (h.assigned hmem)).trans (h.keepsOthers x hx)
  assigned := List.Subset.trans h'.assigned h.assigned
  read := List.Subset.trans h'.read h.read

/-- What is unbound in the state that a run came to was so at its start. -/
theorem unbound {t : Term ν} {env : Environment ν} {s : State ν} (h : t.Confines env s)
    {x : Name} (hx : s.environment.contains x = false) : env.contains x = false := by
  cases hc : env.contains x with
  | false => rfl
  | true =>
      rw [h.keepsBound x hc] at hx
      cases hx

end Confines

variable [Arithmetic ν] {t : Term ν} {env : Environment ν} {s : State ν}

theorem confines_reduce (h : t.reduce env = .ok s) : t.Confines env s := by
  refine ⟨fun x hx => ?_, fun x hx => ?_, namesAssigned_reduce h, namesRead_reduce h⟩
  · rcases environment_reduce h with henv | ⟨y, v, -, henv⟩
    · rwa [henv]
    · rw [henv, Environment.contains, Environment.get?_insert]
      split
      · rfl
      · exact hx
  · rcases environment_reduce h with henv | ⟨y, v, hy, henv⟩
    · rw [henv]
    · have hne : x ≠ y := fun he => hx (he ▸ hy)
      rw [henv, Environment.get?_insert_of_ne env v hne]

theorem confines_after {n : Nat} (h : State.after n ⟨t, env⟩ = .ok s) : t.Confines env s :=
  State.after_induction (motive := t.Confines env) h (.refl t env)
    fun _ _ hu hnext => hu.trans (confines_reduce hnext)

/-- Only a name that the program reads can be missed, and only if it was missing. -/
theorem unbound_of_halts {n : Nat} {x : Name}
    (h : State.Halts ⟨t, env⟩ n (.error (.unboundVariable x))) :
    x ∈ t.namesRead ∧ env.contains x = false := by
  obtain ⟨s, hs, -, hfaults⟩ := h.faults
  obtain ⟨hplace, hnone⟩ := faults_unbound_iff.mp hfaults
  have hconfines := confines_after hs
  have hread : x ∈ s.statement.redex.namesRead := by
    rw [hplace]
    exact List.mem_singleton_self x
  refine ⟨hconfines.read (namesRead_redex_subset _ hread), hconfines.unbound ?_⟩
  rw [Environment.contains, hnone]
  rfl

/-- Evaluation touches only the names that a program assigns to, and unbinds none. This
holds of every state that its steps come to and of the state that evaluation answers
with. So whatever way of running it fails to find a name, the program reads that name and
it was unbound at the start; and if all names it reads are bound there, none fails so. -/
theorem evaluation_confined (t : Term ν) (env : Environment ν) :
    (∀ n s, State.after n ⟨t, env⟩ = .ok s → t.Confines env s) ∧
    (∀ rounds s, t.normalForm? rounds env = some (.ok s) → t.Confines env s) ∧
    (∀ config fuel x,
      (Machine.start t env config).run? fuel = some (.error (.unboundVariable x)) →
        x ∈ t.namesRead ∧ env.contains x = false) ∧
    (∀ rounds x, t.normalForm? rounds env = some (.error (.unboundVariable x)) →
      x ∈ t.namesRead ∧ env.contains x = false) ∧
    ((∀ x ∈ t.namesRead, env.contains x = true) →
      (∀ config fuel x,
        (Machine.start t env config).run? fuel ≠ some (.error (.unboundVariable x))) ∧
      ∀ rounds x, t.normalForm? rounds env ≠ some (.error (.unboundVariable x))) := by
  have hrun : ∀ config fuel x,
      (Machine.start t env config).run? fuel = some (.error (.unboundVariable x)) →
        x ∈ t.namesRead ∧ env.contains x = false := by
    intro config fuel x h
    rcases Machine.halts_of_run? h with ⟨limit, -, he⟩ | ⟨k, hk⟩
    · cases he
    · exact unbound_of_halts hk
  have heval : ∀ rounds x, t.normalForm? rounds env = some (.error (.unboundVariable x)) →
      x ∈ t.namesRead ∧ env.contains x = false := by
    intro rounds x h
    obtain ⟨k, hk⟩ := exists_normalForm?_iff_exists_halts.mp ⟨rounds, h⟩
    exact unbound_of_halts hk
  refine ⟨fun n s => confines_after, fun rounds s h => ?_, hrun, heval, fun hbound => ?_⟩
  · obtain ⟨k, hk⟩ := exists_normalForm?_iff_exists_halts.mp ⟨rounds, h⟩
    exact confines_after (State.halts_ok_iff.mp hk).1
  · have hnone : ∀ x, ¬ (x ∈ t.namesRead ∧ env.contains x = false) := by
      intro x hx
      have hunbound := hx.2
      rw [hbound x hx.1] at hunbound
      cases hunbound
    refine ⟨fun config fuel x h => ?_, fun rounds x h => ?_⟩
    · exact hnone x (hrun config fuel x h)
    · exact hnone x (heval rounds x h)

/-- A run that fails for want of a name has kept what its first operand bound, and what was
bound before. -/
theorem operand_assigns_before_next_fails :
    let t : Term Int64 :=
      .binary .add (.sequence (.assign "x" (.number 1)) (.var "x")) (.var "y")
    let env : Environment Int64 := .ofList [("z", .boolean true)]
    let s : State Int64 :=
      ⟨.binary .add (.number 1) (.var "y"), .ofList [("x", .number 1), ("z", .boolean true)]⟩
    State.after 3 ⟨t, env⟩ = .ok s ∧ t.Confines env s ∧
      (Machine.start t env .default).run? 4 = some (.error (.unboundVariable "y")) ∧
      "y" ∈ t.namesRead ∧ env.contains "y" = false := by
  intro t env s
  have hafter : State.after 3 ⟨t, env⟩ = .ok s := rfl
  have hfails : (Machine.start t env .default).run? 4 = some (.error (.unboundVariable "y")) := rfl
  obtain ⟨hstates, -, hunbound, -⟩ := evaluation_confined t env
  exact ⟨hafter, hstates 3 s hafter, hfails, hunbound .default 4 "y" hfails⟩

end Term

end WhileLang
