import WhileLang.Proofs.Agreement
import WhileLang.Proofs.Contraction

/-!
# The tail of a program tells what it yields

Some programs are run for a value and others for what they do to the environment, and which
of the two it will be can be read off the text. What matters is the part that is run last:
the second of a sequence, either branch of a conditional, and otherwise the construct
itself. A conditional of which one branch yields a value and the other does not may end in
both ways; so there is a list of endings, and it becomes no longer on the way.

All frames leave out a part that is not the last. Whatever happens in there, the endings of
the whole stay the same (`Frame.endings_fill`), and they can only change where a redex is the
whole: when a branch is chosen. The first part of a sequence never contributes, nor does
the body of a loop, which is a first part once the loop is unrolled.
-/

namespace WhileLang

variable {ν : Type}

/-- The two kinds of settled term: a value, or `do-nothing`. -/
inductive Ending where
  | value
  | doNothing
deriving DecidableEq

/-- The kinds of settled term that a term may end in, judged by what is run last. -/
def Term.endings : Term ν → List Ending
  | number _ | boolean _ | var _ | binary .. => [.value]
  | assign .. | doNothing | whileLoop .. => [.doNothing]
  | ifElse _ consequence alternative => consequence.endings ++ alternative.endings
  | sequence _ second => second.endings

@[simp]
theorem Term.endings_ofValue (v : Value ν) : (ofValue v).endings = [.value] := by
  cases v <;> rfl

/-- No frame is around the part that is run last. -/
theorem Frame.endings_fill (f : Frame ν) (t t' : Term ν) :
    (f.fill t).endings = (f.fill t').endings := by
  cases f <;> rfl

variable [Arithmetic ν]

namespace Term

variable {t : Term ν} {env : Environment ν} {s : State ν}

/-- A step leaves no more ways to end. -/
theorem endings_reduce (h : t.reduce env = .ok s) : s.statement.endings ⊆ t.endings := by
  refine contraction_induction (motive := fun t _ s => s.statement.endings ⊆ t.endings)
    (fun t env s hc => ?_) (fun f t env s _ => ?_) h
  · cases hc <;> simp [endings]
  · rw [f.endings_fill s.statement t]
    exact List.Subset.refl _

theorem endings_after {n : Nat} (h : State.after n ⟨t, env⟩ = .ok s) :
    s.statement.endings ⊆ t.endings :=
  State.after_induction (motive := fun u => u.statement.endings ⊆ t.endings) h
    (List.Subset.refl _) fun _ _ hu hnext => List.Subset.trans (endings_reduce hnext) hu

/-- A run that ends well ends in one of the ways foreseen. -/
theorem endings_of_halts {n : Nat} (h : State.Halts ⟨t, env⟩ n (.ok s)) :
    (.value ∈ t.endings ∧ ∃ v, s.statement = ofValue v) ∨
      (.doNothing ∈ t.endings ∧ s.statement = doNothing) := by
  have hsub := endings_after (State.halts_ok_iff.mp h).1
  rcases eq_doNothing_or_ofValue_of_settled (settled_of_run h) with hs | ⟨v, hs⟩
  · rw [hs] at hsub
    exact .inr ⟨hsub List.mem_cons_self, hs⟩
  · rw [hs, endings_ofValue] at hsub
    exact .inl ⟨hsub List.mem_cons_self, v, hs⟩

theorem endings_of_normalForm? {rounds : Nat} (h : t.normalForm? rounds env = some (.ok s)) :
    (.value ∈ t.endings ∧ ∃ v, s.statement = ofValue v) ∨
      (.doNothing ∈ t.endings ∧ s.statement = doNothing) := by
  obtain ⟨k, hk⟩ := exists_normalForm?_iff_exists_halts.mp ⟨rounds, h⟩
  exact endings_of_halts hk

/-- A term that settles to a value may end in one. -/
theorem value_mem_endings {rounds : Nat} {v : Value ν}
    (h : t.evaluateExpression? rounds env = some (.ok v)) : .value ∈ t.endings := by
  obtain ⟨env', hn⟩ := evaluateExpression?_eq_ok_iff.mp h
  rcases endings_of_normalForm? hn with ⟨hmem, -⟩ | ⟨-, hs⟩
  · exact hmem
  · cases v <;> cases hs

/-- What settles without a value is no expression. -/
theorem evaluateExpression?_of_doNothing {rounds : Nat}
    (h : t.normalForm? rounds env = some (.ok s)) (hs : s.statement = doNothing) :
    t.evaluateExpression? rounds env =
      some (.error (.violation (.statementAsValue "do-nothing"))) := by
  rw [evaluateExpression?, h, Option.map_some]
  show some s.statement.operand = _
  rw [hs]
  rfl

/-- The tail of a program tells what it yields. Every statement on the way may end in no
other ways than the first; a program that settles does so in one of these ways, and yields
the value, or else the environment, that goes with it. A program that can only end in
`do-nothing` is never an expression: asked for a value it fails for that reason once it has
settled, and has none to give before. -/
theorem tail_tells_what_is_yielded (t : Term ν) (env : Environment ν) :
    (∀ n s, State.after n ⟨t, env⟩ = .ok s → s.statement.endings ⊆ t.endings) ∧
    (∀ rounds s, t.normalForm? rounds env = some (.ok s) →
      (.value ∈ t.endings ∧ ∃ v, s.statement = ofValue v ∧
        t.evaluate? rounds env = some (.ok (.value v))) ∨
      (.doNothing ∈ t.endings ∧ s.statement = doNothing ∧
        t.evaluate? rounds env = some (.ok (.environment s.environment)))) ∧
    (t.endings ⊆ [.doNothing] →
      (∀ rounds v, t.evaluateExpression? rounds env ≠ some (.ok v)) ∧
      ∀ rounds s, t.normalForm? rounds env = some (.ok s) →
        t.evaluateExpression? rounds env =
          some (.error (.violation (.statementAsValue "do-nothing")))) := by
  refine ⟨fun n s => endings_after, fun rounds s h => ?_, fun honly => ?_⟩
  · have hyields : t.evaluate? rounds env = some (.ok s.outcome) := by
      rw [evaluate?_eq, h]
      rfl
    obtain ⟨statement, env'⟩ := s
    rcases endings_of_normalForm? h with ⟨hmem, v, rfl⟩ | ⟨hmem, rfl⟩
    · rw [State.outcome_ofValue] at hyields
      exact .inl ⟨hmem, v, rfl, hyields⟩
    · exact .inr ⟨hmem, rfl, hyields⟩
  · have hnone : .value ∉ t.endings := fun hmem => by cases List.mem_singleton.mp (honly hmem)
    refine ⟨fun rounds v hv => hnone (value_mem_endings hv), fun rounds s h => ?_⟩
    rcases endings_of_normalForm? h with ⟨hmem, -⟩ | ⟨-, hs⟩
    · exact absurd hmem hnone
    · exact evaluateExpression?_of_doNothing h hs

/-- A counting loop is no expression, though it reads and compares. Followed by its counter
in one branch of a conditional it leaves both ways open, and which it is gets settled by
the branch taken. -/
theorem loop_is_no_expression_until_its_counter_follows :
    let loop : Term Int64 := .whileLoop (.binary .lessThan (.var "i") (.number 2))
      (.assign "i" (.binary .add (.var "i") (.number 1)))
    let choice : Term Int64 := .ifElse (.var "wanted") (.sequence loop (.var "i")) loop
    let env : Environment Int64 := .ofList [("i", .number 0), ("wanted", .boolean true)]
    loop.endings ⊆ [.doNothing] ∧
      loop.evaluateExpression? 3 env =
        some (.error (.violation (.statementAsValue "do-nothing"))) ∧
      choice.endings = [.value, .doNothing] ∧
      ∃ v, choice.evaluate? 3 env = some (.ok (.value v)) := by
  intro loop choice env
  have honly : loop.endings ⊆ [.doNothing] := List.Subset.refl _
  have hloop : loop.normalForm? 3 env = some (.ok ⟨.doNothing, env.insert "i" (.number 2)⟩) := rfl
  have hchoice : choice.normalForm? 3 env = some (.ok ⟨.number 2, env.insert "i" (.number 2)⟩) :=
    rfl
  obtain ⟨-, -, hnone⟩ := tail_tells_what_is_yielded loop env
  obtain ⟨-, hyields, -⟩ := tail_tells_what_is_yielded choice env
  refine ⟨honly, (hnone honly).2 3 _ hloop, rfl, ?_⟩
  rcases hyields 3 _ hchoice with ⟨-, v, -, hv⟩ | ⟨-, hs, -⟩
  · exact ⟨v, hv⟩
  · cases hs

end Term

end WhileLang
