import WhileLang.Proofs.Halting

/-!
# Runs, construct by construct

A step happens in one place of a term, and the term around that place stays as
it is. A `Frame` is such a surrounding: a construct with one part left out, the
part that is being run. While that part is reducible, the steps of the whole
are its steps (`reduce_fill`); so the run of the whole is the run of the part,
and then the run of what the whole has become (`run_fill`).

With the frames put together, the run of each construct is an equation that
reads like the construct's own program: run the parts in order, ask what they
settled to, pay for the step that consumes them. A loop costs a step to unroll,
one to choose the branch and one to drop the finished body. These equations are
all that is used of steps from here on.
-/

namespace WhileLang

open Priced (pay)

variable {ν : Type}

/-- A construct around the part of it that is being run. The right operand of an
operator is run only once the left one has settled. -/
inductive Frame (ν : Type) where
  | leftOperand (op : Operator) (right : Term ν)
  | rightOperand (op : Operator) (left : Term ν) (settled : left.isReducible = false)
  | assigned (name : Name)
  | condition (consequence alternative : Term ν)
  | first (second : Term ν)

/-- The construct with the part put in. -/
def Frame.fill : Frame ν → Term ν → Term ν
  | leftOperand op right, t => .binary op t right
  | rightOperand op left _, t => .binary op left t
  | assigned name, t => .assign name t
  | condition consequence alternative, t => .ifElse t consequence alternative
  | first second, t => .sequence t second

theorem Frame.isReducible_fill (f : Frame ν) (t : Term ν) :
    (f.fill t).isReducible = true := by
  cases f <;> rfl

variable [Arithmetic ν]

/-- As long as the part has steps, they are the steps of the whole. -/
theorem Frame.reduce_fill (f : Frame ν) {t : Term ν} (h : t.isReducible = true)
    (env : Environment ν) :
    (f.fill t).reduce env =
      (do
        let next ← t.reduce env
        return ⟨f.fill next.statement, next.environment⟩) := by
  cases f with
  | leftOperand op right =>
      rw [fill, Term.reduce, if_pos h]
      rfl
  | rightOperand op left settled =>
      rw [fill, Term.reduce, if_neg (by simp [settled]), if_pos h]
      rfl
  | assigned name =>
      rw [fill, Term.reduce, if_pos h]
      rfl
  | condition consequence alternative =>
      rw [fill, Term.reduce, if_pos h]
      rfl
  | first second =>
      rw [fill, Term.reduce, if_pos h]
      rfl

namespace Term

/-- The run of a term in an environment, priced in steps. -/
def run (t : Term ν) (env : Environment ν) : Priced (EvalError ν) (State ν) :=
  ⟨State.Halts ⟨t, env⟩⟩

theorem run_of_settled {t : Term ν} (h : t.isReducible = false) (env : Environment ν) :
    t.run env = pure ⟨t, env⟩ := by
  have hterm : (⟨t, env⟩ : State ν).isTerminal = true := State.isTerminal_iff.mpr h
  refine Priced.ext fun n answer => ?_
  cases n with
  | zero =>
      refine State.halts_zero.trans ?_
      cases answer with
      | ok s => simp [State.Stops, hterm, Priced.gives_pure]
      | error e => simp [State.Stops, hterm, Priced.gives_pure]
  | succ n =>
      refine State.halts_succ.trans ?_
      rw [State.step_of_terminal hterm]
      simp [Priced.gives_pure]

/-- A reducible term is run by taking its step and going on from there. -/
theorem run_of_reducible {t : Term ν} (h : t.isReducible = true) (env : Environment ν) :
    t.run env =
      (do
        let next ← t.reduce env
        pay 1
        next.statement.run next.environment) := by
  have hterm : (⟨t, env⟩ : State ν).isTerminal = false :=
    State.isTerminal_eq_false_iff.mpr h
  have hstep : (⟨t, env⟩ : State ν).step = t.reduce env := rfl
  refine Priced.ext fun n answer => ?_
  cases hr : t.reduce env with
  | error e =>
      rw [Priced.liftM_error_bind, Priced.gives_liftM]
      cases n with
      | zero =>
          refine State.halts_zero.trans ?_
          cases answer with
          | ok s => simp [State.Stops, hterm]
          | error e' => simp [State.Stops, hterm, hstep, hr, eq_comm]
      | succ n =>
          refine State.halts_succ.trans ?_
          simp [hstep, hr]
  | ok next =>
      rw [Priced.liftM_ok, pure_bind, Priced.gives_pay_bind]
      cases n with
      | zero =>
          refine State.halts_zero.trans ?_
          refine ⟨fun hs => absurd hs (State.not_stops_of_step (hstep.trans hr) answer), ?_⟩
          intro hl
          obtain ⟨l, -, hl⟩ := hl
          omega
      | succ n =>
          refine State.halts_succ.trans ?_
          rw [hstep, hr]
          refine ⟨fun hs => ?_, fun hl => ?_⟩
          · obtain ⟨next', hnext, hs⟩ := hs
            cases hnext
            exact ⟨n, hs, Nat.add_comm n 1⟩
          · obtain ⟨l, hl, hn⟩ := hl
            obtain rfl : n = l := by omega
            exact ⟨next, rfl, hl⟩

/-- A run that ends well ends in a terminal state. -/
theorem settled_of_run {t : Term ν} {env : Environment ν} {n : Nat} {s : State ν}
    (h : (t.run env).Gives n (.ok s)) : s.statement.isReducible = false :=
  State.isTerminal_iff.mp (State.halts_ok_iff.mp h).2

end Term

/-- The whole is run by running the part that is due, and then what the whole has
become. -/
theorem Frame.run_fill (f : Frame ν) (t : Term ν) (env : Environment ν) :
    (f.fill t).run env =
      (do
        let s ← t.run env
        (f.fill s.statement).run s.environment) := by
  refine Priced.ext fun n answer => ?_
  -- The runs are compared step by step, so the induction is on what they cost.
  induction n using Nat.strongRecOn generalizing t env with
  | ind n ih =>
      cases h : t.isReducible with
      | false => rw [Term.run_of_settled h, pure_bind]
      | true =>
          rw [Term.run_of_reducible (f.isReducible_fill t), Term.run_of_reducible h,
            f.reduce_fill h, Priced.liftM_bind]
          cases t.reduce env with
          | error e => simp only [Priced.liftM_error_bind]
          | ok next =>
              simp only [bind_assoc, Priced.liftM_ok, Priced.liftM_pure, pure_bind]
              rw [Priced.gives_pay_bind, Priced.gives_pay_bind]
              refine ⟨fun hl => ?_, fun hl => ?_⟩
              · obtain ⟨l, hl, hn⟩ := hl
                exact ⟨l, (ih l (by omega) next.statement next.environment).mp hl, hn⟩
              · obtain ⟨l, hl, hn⟩ := hl
                exact ⟨l, (ih l (by omega) next.statement next.environment).mpr hl, hn⟩

namespace Term

theorem run_var (name : Name) (env : Environment ν) :
    (var name : Term ν).run env =
      (do
        let v ← env.lookup name
        pay 1
        return ⟨ofValue v, env⟩) := by
  rw [run_of_reducible rfl, reduce, Priced.liftM_bind, bind_assoc]
  refine bind_congr fun v => ?_
  rw [Priced.liftM_pure, pure_bind, run_of_settled (isReducible_ofValue v)]

theorem run_binary (op : Operator) (left right : Term ν) (env : Environment ν) :
    (binary op left right).run env =
      (do
        let l ← left.run env
        let r ← right.run l.environment
        let v ← op.apply (← l.statement.operand) (← r.statement.operand)
        pay 1
        return ⟨ofValue v, r.environment⟩) := by
  refine (Frame.run_fill (.leftOperand op right) left env).trans ?_
  refine Priced.bind_congr_of_gives fun l _ hl => ?_
  have hl := settled_of_run hl
  refine (Frame.run_fill (.rightOperand op l.statement hl) right l.environment).trans ?_
  refine Priced.bind_congr_of_gives fun r _ hr => ?_
  have hr := settled_of_run hr
  show (binary op l.statement r.statement).run r.environment = _
  rw [run_of_reducible rfl, reduce, if_neg (by simp [hl]), if_neg (by simp [hr])]
  simp only [Priced.liftM_bind, Priced.liftM_pure, bind_assoc, pure_bind]
  refine bind_congr fun a => bind_congr fun b => bind_congr fun v => bind_congr fun _ => ?_
  exact run_of_settled (isReducible_ofValue v) r.environment

theorem run_assign (name : Name) (expression : Term ν) (env : Environment ν) :
    (assign name expression).run env =
      (do
        let s ← expression.run env
        let v ← s.statement.operand
        pay 1
        return ⟨doNothing, s.environment.insert name v⟩) := by
  refine (Frame.run_fill (.assigned name) expression env).trans ?_
  refine Priced.bind_congr_of_gives fun s _ hs => ?_
  have hs := settled_of_run hs
  show (assign name s.statement).run s.environment = _
  rw [run_of_reducible rfl, reduce, if_neg (by simp [hs])]
  simp only [Priced.liftM_bind, Priced.liftM_pure, bind_assoc, pure_bind]
  refine bind_congr fun v => bind_congr fun _ => ?_
  exact run_of_settled rfl (s.environment.insert name v)

theorem run_ifElse (condition consequence alternative : Term ν) (env : Environment ν) :
    (ifElse condition consequence alternative).run env =
      (do
        let s ← condition.run env
        let holds ← s.statement.truth
        pay 1
        (if holds then consequence else alternative).run s.environment) := by
  refine (Frame.run_fill (.condition consequence alternative) condition env).trans ?_
  refine Priced.bind_congr_of_gives fun s _ hs => ?_
  have hs := settled_of_run hs
  show (ifElse s.statement consequence alternative).run s.environment = _
  rw [run_of_reducible rfl, reduce, if_neg (by simp [hs])]
  simp only [Priced.liftM_bind, Priced.liftM_pure, bind_assoc, pure_bind]

theorem run_sequence (first second : Term ν) (env : Environment ν) :
    (sequence first second).run env =
      (do
        let s ← first.run env
        s.statement.finished
        pay 1
        second.run s.environment) := by
  refine (Frame.run_fill (.first second) first env).trans ?_
  refine Priced.bind_congr_of_gives fun s _ hs => ?_
  have hs := settled_of_run hs
  show (sequence s.statement second).run s.environment = _
  rw [run_of_reducible rfl, reduce, if_neg (by simp [hs])]
  simp only [Priced.liftM_bind, Priced.liftM_pure, bind_assoc, pure_bind]

/-- A round costs three steps besides those of its parts, and leaving costs two. -/
theorem run_whileLoop (condition body : Term ν) (env : Environment ν) :
    (whileLoop condition body).run env =
      (do
        pay 1
        let s ← condition.run env
        let holds ← s.statement.truth
        pay 1
        if holds then
          let s' ← body.run s.environment
          s'.statement.finished
          pay 1
          (whileLoop condition body).run s'.environment
        else
          return ⟨doNothing, s.environment⟩) := by
  rw [run_of_reducible rfl, reduce, Priced.liftM_pure, pure_bind, run_ifElse]
  refine bind_congr fun _ => bind_congr fun s => bind_congr fun holds => bind_congr fun _ => ?_
  cases holds with
  | true => exact run_sequence body (whileLoop condition body) s.environment
  | false => exact run_of_settled rfl s.environment

end Term

end WhileLang
