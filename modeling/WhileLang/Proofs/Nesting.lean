import WhileLang.Proofs.Agreement

/-!
# Sequences and conditionals move out of evaluation positions

A frame waits for the part in it to settle. If that part is a sequence, all that the
frame waits for is its second part, since nothing but the environment is left of the
first; so the first part may as well be run before the frame is entered. The same holds
of a conditional, whose condition is asked before any of the two branches is known to be
the part that the frame waits for. Frames may be nested, and then the whole nest waits.

For the machine this costs nothing and is an equation of runs: the run of a nest is the
run of its part, followed by a run that knows of the part only what it settled to
(`run_nest`), so it is the associativity of `bind` that moves the parts. Evaluation in
one sweep charges for a frame when it is entered. The charge moves behind what is run
before, which cannot be seen in a result but can in an error; hence `SameResults`, and
the charge of a nest is a number that is known from the nest alone
(`exists_sweep_nest`).
-/

namespace WhileLang

open Priced (pay)

variable {ν : Type}

namespace Priced

variable {ε α β : Type}

/-- The same results at the same prices, whatever the errors. -/
def SameResults (P Q : Priced ε α) : Prop :=
  ∀ n a, P.Gives n (.ok a) ↔ Q.Gives n (.ok a)

namespace SameResults

theorem trans {P Q R : Priced ε α} (h : P.SameResults Q) (h' : Q.SameResults R) :
    P.SameResults R :=
  fun n a => (h n a).trans (h' n a)

theorem bind (P : Priced ε α) {Q Q' : α → Priced ε β} (h : ∀ a, (Q a).SameResults (Q' a)) :
    (P >>= Q).SameResults (P >>= Q') := by
  intro n b
  simp only [gives_bind_ok_iff, h _ _ b]

/-- A charge that is made before a part that succeeds may be made behind it. -/
theorem pay_bind (n : Nat) (P : Priced ε α) (Q : α → Priced ε β) :
    (pay n >>= fun _ => P >>= Q).SameResults (P >>= fun a => pay n >>= fun _ => Q a) := by
  intro m b
  simp only [gives_pay_bind, gives_bind_ok_iff]
  constructor
  · intro h
    obtain ⟨j, ⟨a, k, l, hP, hQ, rfl⟩, rfl⟩ := h
    exact ⟨a, k, n + l, hP, ⟨l, hQ, rfl⟩, by omega⟩
  · intro h
    obtain ⟨a, k, j, hP, ⟨l, hQ, rfl⟩, rfl⟩ := h
    exact ⟨k + l, ⟨a, k, l, hP, hQ, rfl⟩, by omega⟩

end SameResults

theorem pay_pay (k n : Nat) : (pay k >>= fun _ => pay n : Priced ε Unit) = pay (k + n) := by
  refine ext fun m answer => ?_
  rw [gives_pay_bind]
  constructor
  · intro h
    obtain ⟨l, ⟨rfl, rfl⟩, rfl⟩ := h
    exact ⟨rfl, rfl⟩
  · intro h
    obtain ⟨rfl, rfl⟩ := h
    exact ⟨n, ⟨rfl, rfl⟩, rfl⟩

theorem pay_zero_bind (Q : Unit → Priced ε α) : (pay 0 >>= Q) = Q () := by
  refine ext fun n answer => ?_
  rw [gives_pay_bind]
  simp

end Priced

namespace Frame

/-- Frames around a part, the outermost first. -/
def nest (frames : List (Frame ν)) (t : Term ν) : Term ν :=
  frames.foldr fill t

theorem nest_nil (t : Term ν) : nest [] t = t := rfl

theorem nest_cons (f : Frame ν) (frames : List (Frame ν)) (t : Term ν) :
    nest (f :: frames) t = f.fill (nest frames t) := rfl

variable [Arithmetic ν]

/-! ## Runs -/

/-- A nest is run by running its part, and then what the nest has become. -/
theorem run_nest (frames : List (Frame ν)) (t : Term ν) (env : Environment ν) :
    (nest frames t).run env =
      (do
        let s ← t.run env
        (nest frames s.statement).run s.environment) := by
  induction frames with
  | nil =>
      have hsettled : (t.run env >>= fun s => s.statement.run s.environment) =
          (t.run env >>= pure) :=
        Priced.bind_congr_of_gives fun s _ hs => Term.run_of_settled (Term.settled_of_run hs) _
      exact ((hsettled).trans (bind_pure _)).symm
  | cons f frames ih =>
      rw [nest_cons, f.run_fill, ih, bind_assoc]
      refine bind_congr fun s => ?_
      rw [nest_cons, f.run_fill]

theorem run_nest_sequence (frames : List (Frame ν)) (first second : Term ν)
    (env : Environment ν) :
    (nest frames (.sequence first second)).run env =
      (Term.sequence first (nest frames second)).run env := by
  rw [run_nest, Term.run_sequence, Term.run_sequence]
  simp only [bind_assoc]
  refine bind_congr fun s => bind_congr fun _ => bind_congr fun _ => ?_
  exact (run_nest frames second s.environment).symm

theorem run_nest_ifElse (frames : List (Frame ν)) (condition consequence alternative : Term ν)
    (env : Environment ν) :
    (nest frames (.ifElse condition consequence alternative)).run env =
      (Term.ifElse condition (nest frames consequence) (nest frames alternative)).run env := by
  rw [run_nest, Term.run_ifElse, Term.run_ifElse]
  simp only [bind_assoc]
  refine bind_congr fun s => bind_congr fun holds => bind_congr fun _ => ?_
  cases holds with
  | true => exact (run_nest frames consequence s.environment).symm
  | false => exact (run_nest frames alternative s.environment).symm

/-! ## Sweeps -/

/-- What is charged on the way through a frame to the part in it. A left operand that has
settled is visited, too. -/
def entryCharge : Frame ν → Nat
  | rightOperand .. => 2
  | leftOperand .. | assigned _ | condition .. | first _ => 1

/-- What a frame evaluates to once the part in it has settled. -/
def complete (s : State ν) : Frame ν → Priced (EvalError ν) (State ν)
  | leftOperand op right => do
      let r ← right.sweep s.environment
      let v ← op.apply (← s.statement.operand) (← r.statement.operand)
      return ⟨.ofValue v, r.environment⟩
  | rightOperand op left _ => do
      let v ← op.apply (← left.operand) (← s.statement.operand)
      return ⟨.ofValue v, s.environment⟩
  | assigned name => do
      let v ← s.statement.operand
      return ⟨.doNothing, s.environment.insert name v⟩
  | condition consequence alternative => do
      let holds ← s.statement.truth
      (if holds then consequence else alternative).sweep s.environment
  | first second => do
      s.statement.finished
      second.sweep s.environment

theorem sweep_fill (f : Frame ν) (t : Term ν) (env : Environment ν) :
    (f.fill t).sweep env =
      (do
        pay f.entryCharge
        let s ← t.sweep env
        f.complete s) := by
  cases f with
  | leftOperand op right => exact Term.sweep_binary op t right env
  | rightOperand op left settled =>
      rw [fill, Term.sweep_binary, Term.sweep_of_settled settled]
      simp only [bind_assoc, pure_bind]
      rw [entryCharge, ← Priced.pay_pay 1 1, bind_assoc]
      rfl
  | assigned name => exact Term.sweep_assign name t env
  | condition consequence alternative => exact Term.sweep_ifElse t consequence alternative env
  | first second => exact Term.sweep_sequence t second env

/-- A nest charges for the way to its part, and then asks only what that settled to. -/
theorem exists_sweep_nest (frames : List (Frame ν)) :
    ∃ (charge : Nat) (rest : State ν → Priced (EvalError ν) (State ν)),
      ∀ (t : Term ν) (env : Environment ν), (nest frames t).sweep env =
        (do
          pay charge
          let s ← t.sweep env
          rest s) := by
  induction frames with
  | nil =>
      refine ⟨0, pure, fun t env => ?_⟩
      rw [Priced.pay_zero_bind, bind_pure, nest_nil]
  | cons f frames ih =>
      obtain ⟨charge, rest, ih⟩ := ih
      refine ⟨f.entryCharge + charge, fun s => rest s >>= fun s' => f.complete s', fun t env => ?_⟩
      rw [nest_cons, f.sweep_fill, ih, ← Priced.pay_pay]
      simp only [bind_assoc]

theorem sweep_nest_sequence (frames : List (Frame ν)) (first second : Term ν)
    (env : Environment ν) :
    ((nest frames (.sequence first second)).sweep env).SameResults
      ((Term.sequence first (nest frames second)).sweep env) := by
  obtain ⟨charge, rest, hnest⟩ := exists_sweep_nest frames
  rw [hnest, Term.sweep_sequence, Term.sweep_sequence]
  simp only [bind_assoc, hnest]
  -- The charge passes the tick of the sequence, its first part, and the question it is asked.
  refine (Priced.SameResults.pay_bind charge (pay 1) _).trans (.bind _ fun _ => ?_)
  refine (Priced.SameResults.pay_bind charge (first.sweep env) _).trans (.bind _ fun s => ?_)
  exact .pay_bind charge (liftM s.statement.finished) _

theorem sweep_nest_ifElse (frames : List (Frame ν))
    (condition consequence alternative : Term ν) (env : Environment ν) :
    ((nest frames (.ifElse condition consequence alternative)).sweep env).SameResults
      ((Term.ifElse condition (nest frames consequence) (nest frames alternative)).sweep env) := by
  obtain ⟨charge, rest, hnest⟩ := exists_sweep_nest frames
  rw [hnest, Term.sweep_ifElse, Term.sweep_ifElse]
  simp only [bind_assoc, ← apply_ite (nest frames), hnest]
  refine (Priced.SameResults.pay_bind charge (pay 1) _).trans (.bind _ fun _ => ?_)
  refine (Priced.SameResults.pay_bind charge (condition.sweep env) _).trans (.bind _ fun s => ?_)
  exact .pay_bind charge (liftM s.statement.truth) _

end Frame

variable [Arithmetic ν]

/-! ## Limits -/

/-- Two programs whose runs are the same return the same under a step limit. -/
theorem Machine.exists_returns_both {t t' : Term ν} {env : Environment ν}
    (h : t.run env = t'.run env) (limit : Nat) (format : TraceFormat) :
    ∃ answer, (start t env ⟨some limit, format⟩).Returns answer ∧
      (start t' env ⟨some limit, format⟩).Returns answer := by
  have hhalts : ∀ k answer, State.Halts ⟨t, env⟩ k answer ↔ State.Halts ⟨t', env⟩ k answer := by
    intro k answer
    show (t.run env).Gives k answer ↔ (t'.run env).Gives k answer
    rw [h]
  by_cases hends : ∃ k answer, State.Halts ⟨t, env⟩ k answer
  · obtain ⟨k, answer, hk⟩ := hends
    have hk' := (hhalts k answer).mp hk
    cases answer with
    | ok s =>
        exact ⟨_, returns_of_halts_ok rfl (Nat.zero_le limit) hk,
          returns_of_halts_ok rfl (Nat.zero_le limit) hk'⟩
    | error e =>
        exact ⟨_, returns_of_halts_error rfl (Nat.zero_le limit) hk,
          returns_of_halts_error rfl (Nat.zero_le limit) hk'⟩
  · have hno : ∀ k answer, ¬ State.Halts ⟨t, env⟩ k answer :=
      fun k answer hk => hends ⟨k, answer, hk⟩
    have hno' : ∀ k answer, ¬ State.Halts ⟨t', env⟩ k answer :=
      fun k answer hk => hno k answer ((hhalts k answer).mpr hk)
    exact ⟨_, returns_of_not_halts rfl (Nat.zero_le limit) hno,
      returns_of_not_halts rfl (Nat.zero_le limit) hno'⟩

theorem Machine.Returns.exists_run?_iff {m : Machine ν} {answer : Except (EvalError ν) (State ν)}
    (h : m.Returns answer) (answer' : Except (EvalError ν) (State ν)) :
    (∃ fuel, m.run? fuel = some answer') ↔ answer' = answer := by
  obtain ⟨fuel, hfuel⟩ := h.silent
  constructor
  · intro h'
    obtain ⟨fuel', hfuel'⟩ := h'
    exact run?_unique hfuel' hfuel
  · rintro rfl
    exact ⟨fuel, hfuel⟩

theorem Machine.exists_run?_iff_of_run_eq {t t' : Term ν} {env : Environment ν}
    (h : t.run env = t'.run env) (config : Config) (answer : Except (EvalError ν) (State ν)) :
    (∃ fuel, (start t env config).run? fuel = some answer) ↔
      ∃ fuel, (start t' env config).run? fuel = some answer := by
  obtain ⟨_ | limit, format⟩ := config
  · rw [Term.exists_run?_iff_exists_halts, Term.exists_run?_iff_exists_halts]
    show (∃ k, (t.run env).Gives k answer) ↔ ∃ k, (t'.run env).Gives k answer
    rw [h]
  · obtain ⟨_, hreturns, hreturns'⟩ := exists_returns_both h limit format
    rw [hreturns.exists_run?_iff, hreturns'.exists_run?_iff]

/-- From this environment the two programs do the same. Their runs end after the same
number of steps and alike, or neither ends; whatever limits the machine, it returns the
same for both; and the gas for a result is the same. -/
structure Term.RunAlike (env : Environment ν) (t t' : Term ν) : Prop where
  halts : ∀ n answer, State.Halts ⟨t, env⟩ n answer ↔ State.Halts ⟨t', env⟩ n answer
  returns : ∀ config answer, (∃ fuel, (Machine.start t env config).run? fuel = some answer) ↔
    ∃ fuel, (Machine.start t' env config).run? fuel = some answer
  gas : ∀ s g, t.Evaluates env .unbounded (.ok s) ⟨g, none⟩ ↔
    t'.Evaluates env .unbounded (.ok s) ⟨g, none⟩

theorem Term.RunAlike.of_run_eq {t t' : Term ν} {env : Environment ν}
    (hrun : t.run env = t'.run env) (hsweep : (t.sweep env).SameResults (t'.sweep env)) :
    RunAlike env t t' where
  halts n answer := by
    show (t.run env).Gives n answer ↔ (t'.run env).Gives n answer
    rw [hrun]
  returns := Machine.exists_run?_iff_of_run_eq hrun
  gas s g := hsweep g s

/-- Sequences and conditionals move freely out of any nest of evaluation positions, and
back in. -/
theorem Term.leading_parts_leave_nest (frames : List (Frame ν)) (a b c : Term ν)
    (env : Environment ν) :
    RunAlike env (Frame.nest frames (sequence a b)) (sequence a (Frame.nest frames b)) ∧
      RunAlike env (Frame.nest frames (ifElse c a b))
        (ifElse c (Frame.nest frames a) (Frame.nest frames b)) :=
  ⟨.of_run_eq (Frame.run_nest_sequence frames a b env) (Frame.sweep_nest_sequence frames a b env),
    .of_run_eq (Frame.run_nest_ifElse frames c a b env) (Frame.sweep_nest_ifElse frames c a b env)⟩

/-- What is assigned to `r` is a product, and its left operand begins with an assignment or
asks a condition first. Moved out in front of the whole, these change neither the result nor
the number of steps nor the gas. -/
theorem Term.leading_parts_leave_product :
    let frames : List (Frame Int64) := [.assigned "r", .leftOperand .multiply (.var "x")]
    let a : Term Int64 := .assign "x" (.number 6)
    let b : Term Int64 := .binary .add (.var "x") (.number 1)
    let c : Term Int64 := .sequence a (.binary .lessThan (.var "x") (.number 9))
    let s : State Int64 :=
      ⟨.doNothing, (Environment.empty.insert "x" (.number 6)).insert "r" (.number 42)⟩
    let inside := Frame.nest frames (.sequence a b)
    let ahead := Term.sequence a (Frame.nest frames b)
    let inside' := Frame.nest frames (.ifElse c b (.number 0))
    let ahead' := Term.ifElse c (Frame.nest frames b) (Frame.nest frames (.number 0))
    (State.Halts ⟨inside, .empty⟩ 7 (.ok s) ∧ State.Halts ⟨ahead, .empty⟩ 7 (.ok s) ∧
      inside.Evaluates .empty .unbounded (.ok s) ⟨9, none⟩ ∧
      ahead.Evaluates .empty .unbounded (.ok s) ⟨9, none⟩) ∧
    State.Halts ⟨inside', .empty⟩ 10 (.ok s) ∧ State.Halts ⟨ahead', .empty⟩ 10 (.ok s) ∧
      inside'.Evaluates .empty .unbounded (.ok s) ⟨13, none⟩ ∧
      ahead'.Evaluates .empty .unbounded (.ok s) ⟨13, none⟩ := by
  intro frames a b c s inside ahead inside' ahead'
  obtain ⟨hsequence, -⟩ := leading_parts_leave_nest frames a b c .empty
  obtain ⟨-, hifElse⟩ := leading_parts_leave_nest frames b (.number 0) c .empty
  have hhalts : State.Halts ⟨inside, .empty⟩ 7 (.ok s) := ⟨_, rfl, rfl, rfl⟩
  have hgas : inside.Evaluates .empty .unbounded (.ok s) ⟨9, none⟩ := ⟨0, rfl⟩
  have hhalts' : State.Halts ⟨inside', .empty⟩ 10 (.ok s) := ⟨_, rfl, rfl, rfl⟩
  have hgas' : inside'.Evaluates .empty .unbounded (.ok s) ⟨13, none⟩ := ⟨0, rfl⟩
  exact ⟨⟨hhalts, (hsequence.halts 7 _).mp hhalts, hgas, (hsequence.gas s 9).mp hgas⟩,
    hhalts', (hifElse.halts 10 _).mp hhalts', hgas', (hifElse.gas s 13).mp hgas'⟩

end WhileLang
