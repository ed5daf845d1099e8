import WhileLang.Proofs.Fault

/-!
# What a program means among the integers

Every number stands for an integer. Putting the integers in the places of the
numbers, in a term, an environment or an error, makes of a program on any number
type the same program on all the integers. The rules are the same text for both;
what differs is that among the integers no result is ever missing.

Nothing but a result looks at a number: texts show its integer, comparisons compare
integers, and everything else moves it. So one step of the two programs is the same
step (`exact_reduce`), unless the one at hand has no number for a result and says so.
-/

namespace WhileLang

variable {ν : Type} [Arithmetic ν]

def Value.exact : Value ν → Value Int
  | number n => number (Arithmetic.toInt n)
  | boolean b => boolean b

/-- The same term, with integers for its numbers. -/
def Term.exact : Term ν → Term Int
  | number n => number (Arithmetic.toInt n)
  | boolean b => boolean b
  | var name => var name
  | binary op left right => binary op left.exact right.exact
  | assign name expression => assign name expression.exact
  | doNothing => doNothing
  | ifElse condition consequence alternative =>
      ifElse condition.exact consequence.exact alternative.exact
  | sequence first second => sequence first.exact second.exact
  | whileLoop condition body => whileLoop condition.exact body.exact

/-- The same bindings, with integers for the numbers. -/
def Environment.exact (env : Environment ν) : Environment Int :=
  ⟨env.bindings.map fun b => (b.1, b.2.exact), env.ascending.map Value.exact⟩

def State.exact (s : State ν) : State Int :=
  ⟨s.statement.exact, s.environment.exact⟩

def EvalError.exact : EvalError ν → EvalError Int
  | unboundVariable name => unboundVariable name
  | violation cause => violation cause
  | arithmeticOverflow op left right =>
      arithmeticOverflow op (Arithmetic.toInt left) (Arithmetic.toInt right)
  | stepLimitExceeded limit => stepLimitExceeded limit
  | gasExhausted => gasExhausted

/-- What a computation comes to among the integers, if that is what its result comes
to. -/
def exactly {α β : Type} (f : α → β) : Except (EvalError ν) α → Except (EvalError Int) β
  | .ok a => .ok (f a)
  | .error e => .error e.exact

theorem exactly_bind {α β α' β' : Type} {f : α → α'} {g : β → β'} (x : Except (EvalError ν) α)
    {k : α → Except (EvalError ν) β} {k' : α' → Except (EvalError Int) β'}
    (h : ∀ a, x = .ok a → exactly g (k a) = k' (f a)) :
    exactly g (x >>= k) = exactly f x >>= k' := by
  cases x with
  | error e => rfl
  | ok a => exact h a rfl

/-! ## Terms and environments -/

theorem Value.render_exact (v : Value ν) : v.exact.render = v.render := by
  match v with
  | number _ | boolean true | boolean false => rfl

namespace Term

theorem exact_ofValue (v : Value ν) : (ofValue v).exact = ofValue v.exact := by
  cases v <;> rfl

theorem isReducible_exact (t : Term ν) : t.exact.isReducible = t.isReducible := by
  cases t <;> rfl

theorem value?_exact (t : Term ν) : t.exact.value? = t.value?.map Value.exact := by
  cases t <;> rfl

/-- Both programs read the same. -/
theorem render_exact (t : Term ν) : t.exact.render = t.render := by
  induction t with
  | number n => rfl
  | boolean b => exact Value.render_exact (.boolean b : Value ν)
  | var | doNothing => rfl
  | binary op left right ihl ihr => rw [exact, render, render, ihl, ihr]
  | assign name expression ih => rw [exact, render, render, ih]
  | ifElse condition consequence alternative ihc iht ihe =>
      rw [exact, render, render, ihc, iht, ihe]
  | sequence first second ihf ihs => rw [exact, render, render, ihf, ihs]
  | whileLoop condition body ihc ihb => rw [exact, render, render, ihc, ihb]

theorem exact_eq_number {t : Term ν} {i : Int} (h : t.exact = number i) :
    ∃ n, t = number n ∧ Arithmetic.toInt n = i := by
  cases t with
  | number n =>
      cases h
      exact ⟨n, rfl, rfl⟩
  | _ => cases h

theorem exact_eq_binary {t : Term ν} {op : Operator} {l r : Term Int}
    (h : t.exact = binary op l r) :
    ∃ left right, t = binary op left right ∧ left.exact = l ∧ right.exact = r := by
  cases t with
  | binary op left right =>
      cases h
      exact ⟨left, right, rfl, rfl, rfl⟩
  | _ => cases h

theorem redex_exact (t : Term ν) : t.exact.redex = t.redex.exact := by
  induction t with
  | number | boolean | var | doNothing => rfl
  | binary op left right ihl ihr =>
      simp only [exact, redex, isReducible_exact, ihl, ihr]
      repeat' split
      all_goals rfl
  | assign name expression ih =>
      simp only [exact, redex, isReducible_exact, ih]
      split <;> rfl
  | ifElse condition consequence alternative ihc _ _ =>
      simp only [exact, redex, isReducible_exact, ihc]
      split <;> rfl
  | sequence first second ihf _ =>
      simp only [exact, redex, isReducible_exact, ihf]
      split <;> rfl
  | whileLoop condition body _ _ => rfl

end Term

namespace Environment

theorem get?_exact (env : Environment ν) (x : Name) :
    env.exact.get? x = (env.get? x).map Value.exact :=
  Sorted.find?_map Value.exact x env.bindings

theorem exact_insert (env : Environment ν) (name : Name) (v : Value ν) :
    (env.insert name v).exact = env.exact.insert name v.exact := by
  ext x
  simp only [get?_exact, get?_insert]
  split <;> rfl

theorem exact_lookup (env : Environment ν) (name : Name) :
    exactly Value.exact (env.lookup name) = env.exact.lookup name := by
  rw [lookup, lookup, get?_exact]
  cases env.get? name <;> rfl

end Environment

/-! ## One step -/

namespace Term

theorem exact_operand (t : Term ν) : exactly Value.exact t.operand = t.exact.operand := by
  rw [operand, operand, value?_exact, render_exact]
  cases t.value? <;> rfl

theorem exact_truth (t : Term ν) : exactly id t.truth = t.exact.truth := by
  cases t with
  | boolean b => rfl
  | _ =>
    rw [exact, truth, truth, ← render_exact]
    · rfl
    all_goals simp

theorem exact_finished (t : Term ν) : exactly id t.finished = t.exact.finished := by
  cases t with
  | doNothing => rfl
  | _ =>
    rw [exact, finished, finished, irreducible, irreducible, ← render_exact]
    · rfl
    all_goals simp

end Term

theorem Operator.exact_apply {op : Operator} {left right : Value ν}
    (h : ∀ a b, op.apply left right ≠ .error (.arithmeticOverflow op a b)) :
    exactly Value.exact (op.apply left right) = op.apply left.exact right.exact := by
  match left, right with
  | .number a, .number b =>
      rw [Value.exact, Value.exact, apply, apply]
      cases hi : op.exact (Arithmetic.toInt a) (Arithmetic.toInt b) with
      | boolean holds =>
          rfl
      | number i =>
          cases hn : (Arithmetic.ofInt? i : Option ν) with
          | none =>
              exact absurd (apply_eq_overflow_iff.mpr ⟨rfl, rfl, rfl, i, hi, hn⟩) (h a b)
          | some n =>
              obtain rfl : Arithmetic.toInt n = i := Arithmetic.ofInt?_eq_some_iff.mp hn
              simp only [hn]
              rfl
  | .boolean _, .number _ | .number _, .boolean _ | .boolean _, .boolean _ => rfl

/-- The frame that is left around the same place. -/
def Frame.exact : Frame ν → Frame Int
  | leftOperand op right => leftOperand op right.exact
  | rightOperand op left settled =>
      rightOperand op left.exact ((Term.isReducible_exact left).trans settled)
  | assigned name => assigned name
  | condition consequence alternative => condition consequence.exact alternative.exact
  | first second => first second.exact

theorem Frame.exact_fill (f : Frame ν) (t : Term ν) : (f.fill t).exact = f.exact.fill t.exact := by
  cases f <;> rfl

namespace Term

/-- A step overflows if the operator at its place does. -/
theorem reduce_eq_overflow_iff {t : Term ν} {env : Environment ν} {op : Operator} {a b : ν} :
    t.reduce env = .error (.arithmeticOverflow op a b) ↔
      t.redex = binary op (number a) (number b) ∧
        ∃ i, op.exact (Arithmetic.toInt a) (Arithmetic.toInt b) = .number i ∧
          (Arithmetic.ofInt? i : Option ν) = none := by
  cases ht : t.isReducible with
  | true =>
      rw [reduce_eq_error_iff_faults ht]
      exact faults_overflow_iff
  | false =>
      rw [reduce_of_settled ht]
      constructor
      · intro h
        cases h
      · rintro ⟨h, -⟩
        cases t <;> cases ht <;> cases h

theorem exact_reduce {t : Term ν} {env : Environment ν}
    (h : ∀ op a b, t.reduce env ≠ .error (.arithmeticOverflow op a b)) :
    exactly State.exact (t.reduce env) = t.exact.reduce env.exact := by
  induction t using reduction_induction generalizing env with
  | settled t hs =>
      have hs' : t.exact.isReducible = false := (isReducible_exact t).trans hs
      rw [reduce_of_settled hs, reduce_of_settled hs', irreducible, irreducible, render_exact]
      rfl
  | redex t ht =>
      cases ht with
      | var name =>
          rw [exact, reduce, reduce, ← Environment.exact_lookup]
          refine exactly_bind _ fun v _ => ?_
          rw [← exact_ofValue]
          rfl
      | @binary op left right hl hr =>
          have hl' := (isReducible_exact left).trans hl
          have hr' := (isReducible_exact right).trans hr
          rw [reduce_binary_of_settled op hl hr] at h ⊢
          rw [exact, reduce_binary_of_settled op hl' hr', ← exact_operand, ← exact_operand]
          refine exactly_bind _ fun a ha => exactly_bind _ fun b hb => ?_
          rw [ha, hb] at h
          have happly : ∀ i j, op.apply a b ≠ .error (.arithmeticOverflow op i j) := by
            intro i j ho
            refine h op i j ?_
            show (op.apply a b >>= _) = _
            rw [ho]
            rfl
          rw [← Operator.exact_apply happly]
          refine exactly_bind _ fun v _ => ?_
          rw [← exact_ofValue]
          rfl
      | @assign name expression hs =>
          have hs' := (isReducible_exact expression).trans hs
          rw [exact, reduce_assign_of_settled name hs, reduce_assign_of_settled name hs',
            ← exact_operand]
          refine exactly_bind _ fun v _ => ?_
          rw [← Environment.exact_insert]
          rfl
      | @ifElse condition consequence alternative hs =>
          have hs' := (isReducible_exact condition).trans hs
          rw [exact, reduce_ifElse_of_settled consequence alternative hs,
            reduce_ifElse_of_settled _ _ hs', ← exact_truth]
          refine exactly_bind _ fun holds _ => ?_
          cases holds <;> rfl
      | @sequence first second hs =>
          have hs' := (isReducible_exact first).trans hs
          rw [exact, reduce_sequence_of_settled second hs, reduce_sequence_of_settled _ hs',
            ← exact_finished]
          exact exactly_bind _ fun _ _ => rfl
      | whileLoop condition body => rfl
  | fill f t ht ih =>
      have ht' := (isReducible_exact t).trans ht
      rw [f.reduce_fill ht] at h ⊢
      rw [Frame.exact_fill, f.exact.reduce_fill ht']
      rw [← ih fun op a b ho => h op a b (bind_eq_error_iff.mpr (.inl ho))]
      refine exactly_bind _ fun next _ => ?_
      show Except.ok (State.exact _) = _
      rw [State.exact, Frame.exact_fill]
      rfl

end Term

end WhileLang
