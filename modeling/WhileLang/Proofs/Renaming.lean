import WhileLang.Proofs.Agreement
import WhileLang.Proofs.Decomposition
import WhileLang.Proofs.Snapshots

/-!
# What variables are called makes no difference

A program and its environment are put under other names, so that different names stay
different. The bindings may then come in another order, and every text that shows a name
shows another one. Nothing that is computed notices: a name is only ever compared with
names, for a look-up or for a binding, and both are compared alike before and after.

An error could still give a name away, since some errors quote a term. They quote what has
settled, and in a settled term there is no name. So renaming an error concerns that of an
unbound variable alone, which is `EvalError.rename`, and a whole run commutes with it.

For steps this follows from what is known of redexes: a redex under other names contracts
to the same under other names (`Contracts.rename`), or has the same fault (`Faults.rename`).
For sweeps, renaming is carried through `bind`. What a part of a term answers with is kept
as it stands there and only its environment is renamed (`State.renameBindings`), because
the questions put to it are then the same questions; that it has settled, so that there
was nothing to rename, is needed at the very end.
-/

namespace WhileLang

variable {ν : Type}

/-- The same term under other names, both where they are read and where they are assigned. -/
def Term.rename (p : Name → Name) : Term ν → Term ν
  | number n => number n
  | boolean b => boolean b
  | var name => var (p name)
  | binary op left right => binary op (left.rename p) (right.rename p)
  | assign name expression => assign (p name) (expression.rename p)
  | doNothing => doNothing
  | ifElse condition consequence alternative =>
      ifElse (condition.rename p) (consequence.rename p) (alternative.rename p)
  | sequence first second => sequence (first.rename p) (second.rename p)
  | whileLoop condition body => whileLoop (condition.rename p) (body.rename p)

/-- The same bindings under other names, in the order of these. -/
def Environment.rename (p : Name → Name) (env : Environment ν) : Environment ν :=
  ofList (env.toList.map fun b => (p b.1, b.2))

namespace State

def rename (p : Name → Name) (s : State ν) : State ν :=
  ⟨s.statement.rename p, s.environment.rename p⟩

/-- The same statement, with the bindings under other names. -/
def renameBindings (p : Name → Name) (s : State ν) : State ν :=
  ⟨s.statement, s.environment.rename p⟩

end State

/-- Of all errors, only that of an unbound variable says a name. -/
def EvalError.rename (p : Name → Name) : EvalError ν → EvalError ν
  | unboundVariable name => unboundVariable (p name)
  | violation cause => violation cause
  | arithmeticOverflow op left right => arithmeticOverflow op left right
  | stepLimitExceeded limit => stepLimitExceeded limit
  | gasExhausted => gasExhausted

/-- An answer under other names, where these make `f a` of a result `a`. -/
def renamed {α β : Type} (p : Name → Name) (f : α → β) :
    Except (EvalError ν) α → Except (EvalError ν) β
  | .ok a => .ok (f a)
  | .error e => .error (e.rename p)

variable {p : Name → Name}

/-! ## Environments -/

theorem lastWrite?_rename (hp : Function.Injective p) (writes : List (Name × Value ν)) (x : Name) :
    lastWrite? (writes.map fun b => (p b.1, b.2)) (p x) = lastWrite? writes x := by
  induction writes using List.reverseRecOn with
  | nil => rfl
  | append_singleton writes b ih =>
      rw [List.map_append, List.map_singleton, lastWrite?_concat, lastWrite?_concat, ih]
      simp only [hp.eq_iff]

namespace Environment

theorem get?_rename (hp : Function.Injective p) (env : Environment ν) (x : Name) :
    (env.rename p).get? (p x) = env.get? x := by
  rw [rename, get?_ofList, lastWrite?_rename hp, ← get?_ofList, ofList_toList]

theorem get?_rename_of_ne {y : Name} (hy : ∀ x, p x ≠ y) (env : Environment ν) :
    (env.rename p).get? y = none := by
  rw [rename, get?_ofList, ← Option.not_isSome_iff_eq_none, isSome_lastWrite?]
  simp [hy]

/-- A binding is made under the other name. -/
theorem rename_insert (hp : Function.Injective p) (env : Environment ν) (name : Name)
    (v : Value ν) : (env.insert name v).rename p = (env.rename p).insert (p name) v := by
  ext1 y
  rw [get?_insert]
  by_cases hy : ∃ x, p x = y
  · obtain ⟨x, rfl⟩ := hy
    rw [get?_rename hp, get?_rename hp, get?_insert]
    simp only [hp.eq_iff]
  · have hne : ∀ x, p x ≠ y := not_exists.mp hy
    rw [get?_rename_of_ne hne, get?_rename_of_ne hne, if_neg (hne name).symm]

theorem lookup_rename (hp : Function.Injective p) (env : Environment ν) (name : Name) :
    (env.rename p).lookup (p name) = renamed p id (env.lookup name) := by
  rw [lookup, lookup, get?_rename hp]
  cases env.get? name <;> rfl

end Environment

/-! ## Computations on a meter -/

namespace Metered

variable {α β γ δ : Type} {f : α → β} {g : γ → δ}

/-- The same computation under other names. It charges the same. -/
def renamed (p : Name → Name) (f : α → β) (x : Metered ν α) : Metered ν β :=
  ExceptT.mk fun m => (x.on m).map fun r => (WhileLang.renamed p f r.1, r.2)

theorem on_renamed (x : Metered ν α) (m : Meter) :
    (x.renamed p f).on m = (x.on m).map fun r => (WhileLang.renamed p f r.1, r.2) := rfl

theorem bind_renamed {x : Metered ν α} {y : Metered ν β} {k : α → Metered ν γ}
    {k' : β → Metered ν δ} (hx : y = x.renamed p f) (hk : ∀ a, k' (f a) = (k a).renamed p g) :
    y >>= k' = (x >>= k).renamed p g := by
  subst hx
  refine funext fun m => ?_
  show (x.renamed p f >>= k').on m = ((x >>= k).renamed p g).on m
  rw [on_renamed, on_bind, on_bind, on_renamed]
  match x.on m with
  | none => rfl
  | some (.error e, m') => rfl
  | some (.ok a, m') =>
      show (k' (f a)).on m' = _
      rw [hk]
      rfl

theorem tick_bind_renamed {k : Metered ν γ} {k' : Metered ν δ} (hk : k' = k.renamed p g) :
    (tick >>= fun _ => k') = (tick >>= fun _ => k).renamed p g := by
  have htick : (tick : Metered ν Unit) = tick.renamed p id := by
    refine funext fun m => ?_
    show tick.on m = (tick.renamed p id).on m
    rw [on_renamed, on_tick]
    split <;> rfl
  exact bind_renamed htick fun _ => hk

theorem lift_bind_renamed {x : Except (EvalError ν) α} {y : Except (EvalError ν) β}
    {k : α → Metered ν γ} {k' : β → Metered ν δ} (hx : y = WhileLang.renamed p f x)
    (hk : ∀ a, k' (f a) = (k a).renamed p g) :
    (liftM y >>= k') = (liftM x >>= k).renamed p g := by
  subst hx
  exact bind_renamed rfl hk

end Metered

/-! ## Steps -/

namespace Term

@[simp]
theorem rename_ofValue (v : Value ν) : (ofValue v).rename p = ofValue v := by
  cases v <;> rfl

@[simp]
theorem isReducible_rename (t : Term ν) : (t.rename p).isReducible = t.isReducible := by
  cases t <;> rfl

/-- A settled term holds no name. -/
theorem rename_of_settled {t : Term ν} (h : t.isReducible = false) : t.rename p = t := by
  rcases eq_doNothing_or_ofValue_of_settled h with rfl | ⟨v, rfl⟩
  · rfl
  · exact rename_ofValue v

end Term

def Frame.rename (p : Name → Name) : Frame ν → Frame ν
  | leftOperand op right => leftOperand op (right.rename p)
  | rightOperand op left settled =>
      rightOperand op (left.rename p) ((Term.isReducible_rename left).trans settled)
  | assigned name => assigned (p name)
  | condition consequence alternative => condition (consequence.rename p) (alternative.rename p)
  | first second => first (second.rename p)

theorem Frame.rename_fill (f : Frame ν) (t : Term ν) :
    (f.fill t).rename p = (f.rename p).fill (t.rename p) := by
  cases f <;> rfl

theorem State.translates_rename :
    Translates (rename p : State ν → State ν) (renamed p (rename p)) where
  ok _ := rfl
  error e := ⟨e.rename p, rfl⟩
  isTerminal s := congrArg Bool.not (Term.isReducible_rename s.statement)

variable [Arithmetic ν]

namespace Term

theorem Contracts.rename (hp : Function.Injective p) {t : Term ν} {env : Environment ν}
    {s : State ν} (h : t.Contracts env s) :
    (t.rename p).Contracts (env.rename p) (s.rename p) := by
  cases h with
  | var h =>
      rw [State.rename, rename_ofValue]
      exact .var ((Environment.get?_rename hp env _).trans h)
  | binary env h =>
      rw [State.rename, Term.rename, rename_ofValue, rename_ofValue, rename_ofValue]
      exact .binary (env.rename p) h
  | assign name v env =>
      rw [State.rename, Term.rename, rename_ofValue, Environment.rename_insert hp]
      exact .assign (p name) v (env.rename p)
  | ifTrue consequence alternative env => exact .ifTrue _ _ (env.rename p)
  | ifFalse consequence alternative env => exact .ifFalse _ _ (env.rename p)
  | sequence second env => exact .sequence _ (env.rename p)
  | whileLoop condition body env => exact .whileLoop _ _ (env.rename p)

/-- A fault quotes settled terms at most, so it says the same under other names. -/
theorem Faults.rename (hp : Function.Injective p) {t : Term ν} {env : Environment ν}
    {e : EvalError ν} (h : t.Faults env e) :
    (t.rename p).Faults (env.rename p) (e.rename p) := by
  cases h with
  | unbound h => exact .unbound ((Environment.get?_rename hp env _).trans h)
  | leftStatement op h env =>
      exact .leftStatement op ((isReducible_rename _).trans h) (env.rename p)
  | rightStatement op a env =>
      rw [Term.rename, rename_ofValue]
      exact .rightStatement op a (env.rename p)
  | mismatch op h env =>
      rw [Term.rename, rename_ofValue, rename_ofValue]
      exact .mismatch op h (env.rename p)
  | overflow hi hnone env => exact .overflow hi hnone (env.rename p)
  | assignedStatement name env => exact .assignedStatement (p name) (env.rename p)
  | numberCondition n consequence alternative env =>
      exact .numberCondition n _ _ (env.rename p)
  | statementCondition consequence alternative env =>
      exact .statementCondition _ _ (env.rename p)
  | valueFirst v second env =>
      rw [Term.rename, rename_ofValue]
      exact .valueFirst v _ (env.rename p)

/-- One step under other names is the step, under other names. -/
theorem reduce_rename (hp : Function.Injective p) (t : Term ν) (env : Environment ν) :
    (t.rename p).reduce (env.rename p) = renamed p (State.rename p) (t.reduce env) := by
  induction t using reduction_induction with
  | settled t hs =>
      rw [rename_of_settled hs, reduce_of_settled hs, reduce_of_settled hs]
      rfl
  | redex t ht =>
      cases h : t.reduce env with
      | ok s => exact ((ht.contracts h).rename hp).reduce
      | error e => exact ((ht.faults h).rename hp).reduce
  | fill f t ht ih =>
      have ht' : (t.rename p).isReducible = true := (isReducible_rename t).trans ht
      rw [f.reduce_fill ht, f.rename_fill, (f.rename p).reduce_fill ht', ih]
      cases t.reduce env with
      | error e => rfl
      | ok next =>
          show _ = Except.ok (State.rename p ⟨f.fill next.statement, next.environment⟩)
          rw [State.rename, f.rename_fill]
          rfl

end Term

namespace State

theorem step_rename (hp : Function.Injective p) (s : State ν) :
    (s.rename p).step = renamed p (rename p) s.step :=
  Term.reduce_rename hp s.statement s.environment

theorem after_rename (hp : Function.Injective p) (n : Nat) (s : State ν) :
    after n (s.rename p) = renamed p (rename p) (after n s) := by
  induction n generalizing s with
  | zero => rfl
  | succ n ih =>
      rw [after, after, step_rename hp]
      cases s.step with
      | error e => rfl
      | ok next => exact ih next

theorem halts_rename_iff (hp : Function.Injective p) (s : State ν) {n : Nat}
    {answer : Except (EvalError ν) (State ν)} :
    (s.rename p).Halts n answer ↔
      ∃ answer', s.Halts n answer' ∧ answer = renamed p (rename p) answer' :=
  translates_rename.halts_iff (after_rename hp n s) fun t _ => step_rename hp t

end State

/-! ## Sweeps -/

namespace Term

/-! The questions put to a settled term are answered without names, and the errors they
have instead quote no name that could be told from other text. -/

theorem operand_renamed (t : Term ν) : t.operand = renamed p id t.operand := by
  rw [operand]
  cases t.value? <;> rfl

theorem truth_renamed (t : Term ν) : t.truth = renamed p id t.truth := by
  cases t <;> rfl

theorem finished_renamed (t : Term ν) : t.finished = renamed p id t.finished := by
  cases t <;> rfl

end Term

theorem Operator.apply_renamed (op : Operator) (left right : Value ν) :
    op.apply left right = renamed p id (op.apply left right) := by
  rw [apply.eq_def]
  repeat' split
  all_goals rfl

/-- If condition and body are the same under other names, so are their rounds. -/
theorem Metered.iterate_rename
    {condition body condition' body' : Environment ν → Metered ν (State ν)}
    (hc : ∀ env, condition' (env.rename p) = (condition env).renamed p (State.renameBindings p))
    (hb : ∀ env, body' (env.rename p) = (body env).renamed p (State.renameBindings p))
    (rounds : Nat) (env : Environment ν) :
    iterate condition' body' rounds (env.rename p) =
      (iterate condition body rounds env).renamed p (State.renameBindings p) := by
  induction rounds generalizing env with
  | zero => rfl
  | succ rounds ih =>
      rw [iterate, iterate]
      refine bind_renamed (hc env) fun s => ?_
      refine lift_bind_renamed s.statement.truth_renamed fun holds => ?_
      cases holds with
      | false => rfl
      | true =>
          refine bind_renamed (hb s.environment) fun s' => ?_
          exact lift_bind_renamed s'.statement.finished_renamed fun _ => ih s'.environment

namespace Term

section

open Metered

/-- The parts of a term answer under other names as they did, in environments under these. -/
theorem eval_rename (hp : Function.Injective p) (rounds : Nat) (t : Term ν)
    (env : Environment ν) :
    (t.rename p).eval rounds (env.rename p) =
      (t.eval rounds env).renamed p (State.renameBindings p) := by
  induction t generalizing env with
  | number | boolean | doNothing => exact tick_bind_renamed rfl
  | var name =>
      refine tick_bind_renamed (lift_bind_renamed (env.lookup_rename hp name) fun v => ?_)
      rfl
  | binary op left right ihl ihr =>
      refine tick_bind_renamed (bind_renamed (ihl env) fun l => ?_)
      refine bind_renamed (ihr l.environment) fun r => ?_
      refine lift_bind_renamed l.statement.operand_renamed fun a => ?_
      refine lift_bind_renamed r.statement.operand_renamed fun b => ?_
      exact lift_bind_renamed (op.apply_renamed a b) fun v => rfl
  | assign name expression ih =>
      refine tick_bind_renamed (bind_renamed (ih env) fun s => ?_)
      refine lift_bind_renamed s.statement.operand_renamed fun v => ?_
      have hinsert := Environment.rename_insert hp s.environment name v
      exact congrArg (fun env => (pure ⟨doNothing, env⟩ : Metered ν (State ν))) hinsert.symm
  | ifElse condition consequence alternative ihc iht ihe =>
      refine tick_bind_renamed (bind_renamed (ihc env) fun s => ?_)
      refine lift_bind_renamed s.statement.truth_renamed fun holds => ?_
      cases holds with
      | true => exact iht s.environment
      | false => exact ihe s.environment
  | sequence first second ihf ihs =>
      refine tick_bind_renamed (bind_renamed (ihf env) fun s => ?_)
      exact lift_bind_renamed s.statement.finished_renamed fun _ => ihs s.environment
  | whileLoop condition body ihc ihb =>
      exact tick_bind_renamed (iterate_rename ihc ihb rounds env)

end

/-- What a sweep answers with has settled, so its statement is the same under other names,
too. -/
theorem on_eval_rename (hp : Function.Injective p) (rounds : Nat) (t : Term ν)
    (env : Environment ν) (m : Meter) :
    ((t.rename p).eval rounds (env.rename p)).on m =
      ((t.eval rounds env).on m).map fun r => (renamed p (State.rename p) r.1, r.2) := by
  rw [eval_rename hp, Metered.on_renamed]
  match h : (t.eval rounds env).on m with
  | none => rfl
  | some (.error e, m') => rfl
  | some (.ok s, m') =>
      obtain ⟨k, hk⟩ := Evaluates.halts_ok ⟨rounds, h⟩
      show some (Except.ok (s.renameBindings p), m') = some (.ok (s.rename p), m')
      rw [State.renameBindings, State.rename, rename_of_settled (settled_of_run hk)]

/-- Under other names, as long as different ones stay different, a program does the same.
After every number of steps it is in the state that it would be in, under the other names.
It ends or fails after the same number of them, and the same way, but for the name of an
unbound variable, which is then the other one. It evaluates to the same, and on any meter
it is charged the same. -/
theorem run_commutes_with_renaming (hp : Function.Injective p) (t : Term ν)
    (env : Environment ν) :
    (∀ n, State.after n ⟨t.rename p, env.rename p⟩ =
      renamed p (State.rename p) (State.after n ⟨t, env⟩)) ∧
    (∀ n answer, State.Halts ⟨t.rename p, env.rename p⟩ n answer ↔
      ∃ answer', State.Halts ⟨t, env⟩ n answer' ∧
        answer = renamed p (State.rename p) answer') ∧
    (∀ rounds, (t.rename p).normalForm? rounds (env.rename p) =
      (t.normalForm? rounds env).map (renamed p (State.rename p))) ∧
    ∀ rounds m, ((t.rename p).eval rounds (env.rename p)).on m =
      ((t.eval rounds env).on m).map fun r => (renamed p (State.rename p) r.1, r.2) := by
  have heval := fun rounds => on_eval_rename hp rounds t env
  refine ⟨fun n => State.after_rename hp n ⟨t, env⟩,
    fun n answer => State.halts_rename_iff hp ⟨t, env⟩, fun rounds => ?_, heval⟩
  rw [normalForm?, normalForm?, heval, Option.map_map, Option.map_map]
  rfl

/-- Two names are exchanged, and with them the order of the bindings. The program that read
the one it had no value for now misses the other, at the same point and at the same price. -/
theorem swapped_names_fail_alike :
    let p : Name → Name := Equiv.swap "a" "z"
    let t : Term Int64 :=
      .sequence (.assign "a" (.binary .add (.var "a") (.number 1))) (.var "z")
    let env : Environment Int64 := .ofList [("a", .number 1), ("m", .boolean true)]
    Function.Injective p ∧
      (env.rename p).toList = [("m", .boolean true), ("z", .number 1)] ∧
      State.Halts ⟨t, env⟩ 4 (.error (.unboundVariable "z")) ∧
      State.Halts ⟨t.rename p, env.rename p⟩ 4 (.error (.unboundVariable "a")) ∧
      (t.eval 0 env).on .unbounded = some (.error (.unboundVariable "z"), ⟨6, none⟩) ∧
      ((t.rename p).eval 0 (env.rename p)).on .unbounded =
        some (.error (.unboundVariable "a"), ⟨6, none⟩) := by
  intro p t env
  have hp : Function.Injective p := (Equiv.swap "a" "z").injective
  have hhalts : State.Halts ⟨t, env⟩ 4 (.error (.unboundVariable "z")) := ⟨_, rfl, rfl, rfl⟩
  have heval : (t.eval 0 env).on .unbounded = some (.error (.unboundVariable "z"), ⟨6, none⟩) :=
    rfl
  obtain ⟨-, hends, -, hsweeps⟩ := run_commutes_with_renaming hp t env
  refine ⟨hp, rfl, hhalts, (hends 4 _).mpr ⟨_, hhalts, rfl⟩, heval, ?_⟩
  rw [hsweeps, heval]
  rfl

end Term

end WhileLang
