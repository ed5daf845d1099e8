import Mathlib.Algebra.BigOperators.Group.Finset.Basic
import WhileLang.Proofs.Independence
import WhileLang.Proofs.Nesting

/-!
# The rounds of a loop

A loop that ends has gone round some number of times. Each time its condition settled to
true and its body to `do-nothing`, each starting where the other had left off, and then the
condition settled to false. `Course` says this with the environments in between and with
what the parts cost.

The two ways of evaluating see nothing of it. The machine unrolls the loop into other
terms, the evaluator goes round without a term to show for it. What they have in common
is how one round stands to the rest: either the loop is left, or there is a round and then
a loop from where that ended, for an overhead that is fixed. That alone (`GoesRound`)
gives the courses and their price, in one direction by induction on the rounds. In the
other direction the number of rounds is what has to be found, and the induction is on
what the whole loop cost; so no round may be free.

The rounds are the same in both ways of evaluating, because the two agree on the condition
and on the body. Only their prices differ.
-/

namespace WhileLang

open Priced (pay)

variable {ν : Type}

/-- What holds when a term, evaluated in an environment at a cost, has settled in a state. -/
abbrev Settling (ν : Type) : Type :=
  Term ν → Environment ν → Nat → State ν → Prop

/-- A loop goes round so many times. Before each round, and before the condition fails, the
environment is `start`; in each round the condition leaves `between`. Asking the condition
costs `asked` and doing the body costs `done`. -/
structure Course (Settles : Settling ν) (condition body : Term ν) (rounds : Nat)
    (start between : Nat → Environment ν) (last : Environment ν) (asked done : Nat → Nat) :
    Prop where
  holds : ∀ i < rounds, Settles condition (start i) (asked i) ⟨.boolean true, between i⟩
  goes : ∀ i < rounds, Settles body (between i) (done i) ⟨.doNothing, start (i + 1)⟩
  fails : Settles condition (start rounds) (asked rounds) ⟨.boolean false, last⟩

/-- The sequence with one more entry in front. -/
def precede {α : Type} (a : α) (f : Nat → α) : Nat → α
  | 0 => a
  | i + 1 => f i

namespace Course

variable {Settles : Settling ν} {condition body : Term ν} {k p q : Nat}
  {start between : Nat → Environment ν} {last env f : Environment ν} {asked done : Nat → Nat}

theorem none (h : Settles condition env p ⟨.boolean false, last⟩) :
    Course Settles condition body 0 (fun _ => env) between last (fun _ => p) done where
  holds i hi := absurd hi (Nat.not_lt_zero i)
  goes i hi := absurd hi (Nat.not_lt_zero i)
  fails := h

/-- One more round comes first. -/
theorem cons (hc : Settles condition env p ⟨.boolean true, f⟩)
    (hb : Settles body f q ⟨.doNothing, start 0⟩)
    (h : Course Settles condition body k start between last asked done) :
    Course Settles condition body (k + 1) (precede env start) (precede f between) last
      (precede p asked) (precede q done) where
  holds i hi := by
    cases i with
    | zero => exact hc
    | succ i => exact h.holds i (Nat.lt_of_succ_lt_succ hi)
  goes i hi := by
    cases i with
    | zero => exact hb
    | succ i => exact h.goes i (Nat.lt_of_succ_lt_succ hi)
  fails := h.fails

/-- What follows the first round. -/
theorem tail (h : Course Settles condition body (k + 1) start between last asked done) :
    Course Settles condition body k (fun i => start (i + 1)) (fun i => between (i + 1)) last
      (fun i => asked (i + 1)) (fun i => done (i + 1)) where
  holds i hi := h.holds (i + 1) (Nat.succ_lt_succ hi)
  goes i hi := h.goes (i + 1) (Nat.succ_lt_succ hi)
  fails := h.fails

/-- If whatever settles in the one way settles in the other, at some cost, then the same
rounds are a course for the other. -/
theorem exists_converted {Settles' : Settling ν}
    (hconv : ∀ {t env n s}, Settles t env n s → ∃ n', Settles' t env n' s)
    (h : Course Settles condition body k start between last asked done) :
    ∃ asked' done', Course Settles' condition body k start between last asked' done' := by
  have hdone : ∀ i, ∃ q, i < k → Settles' body (between i) q ⟨.doNothing, start (i + 1)⟩ := by
    intro i
    by_cases hi : i < k
    · obtain ⟨q, hq⟩ := hconv (h.goes i hi)
      exact ⟨q, fun _ => hq⟩
    · exact ⟨0, fun hlt => absurd hlt hi⟩
  have hasked : ∀ i, ∃ p, (i < k → Settles' condition (start i) p ⟨.boolean true, between i⟩) ∧
      (i = k → Settles' condition (start k) p ⟨.boolean false, last⟩) := by
    intro i
    by_cases hi : i < k
    · obtain ⟨p, hp⟩ := hconv (h.holds i hi)
      exact ⟨p, fun _ => hp, fun heq => absurd hi (by omega)⟩
    · obtain ⟨p, hp⟩ := hconv h.fails
      exact ⟨p, fun hlt => absurd hlt hi, fun _ => hp⟩
  choose done' hdone using hdone
  choose asked' hasked using hasked
  exact ⟨asked', done', fun i => (hasked i).1, hdone, (hasked k).2 rfl⟩

end Course

/-- A loop goes round with this condition and body, at a price of `again` for each round and of
`leave` for the way out, besides what its parts cost. -/
structure GoesRound (Settles : Settling ν) (condition body : Term ν)
    (Loop : Environment ν → Nat → State ν → Prop) (again leave : Nat) : Prop where
  settles_iff : ∀ {env n s}, Loop env n s ↔
    (∃ p f, Settles condition env p ⟨.boolean false, f⟩ ∧ s = ⟨.doNothing, f⟩ ∧ n = p + leave) ∨
      ∃ p f q e l, Settles condition env p ⟨.boolean true, f⟩ ∧ Settles body f q ⟨.doNothing, e⟩ ∧
        Loop e l s ∧ n = l + (p + q + again)
  pos : ∀ {env p s}, Settles condition env p s → 0 < p + again

namespace GoesRound

variable {Settles : Settling ν} {condition body : Term ν}
  {Loop : Environment ν → Nat → State ν → Prop} {again leave : Nat}

theorem settles_of_course (h : GoesRound Settles condition body Loop again leave) {k : Nat}
    {start between : Nat → Environment ν} {last : Environment ν} {asked done : Nat → Nat}
    (hc : Course Settles condition body k start between last asked done) :
    Loop (start 0) ((∑ i ∈ Finset.range k, (asked i + done i + again)) + asked k + leave)
      ⟨.doNothing, last⟩ := by
  induction k generalizing start between asked done with
  | zero =>
      rw [Finset.sum_range_zero, Nat.zero_add]
      exact h.settles_iff.mpr (.inl ⟨_, _, hc.fails, rfl, rfl⟩)
  | succ k ih =>
      have hfirst := hc.holds 0 (Nat.succ_pos k)
      have hbody := hc.goes 0 (Nat.succ_pos k)
      refine h.settles_iff.mpr (.inr ⟨_, _, _, _, _, hfirst, hbody, ih hc.tail, ?_⟩)
      rw [Finset.sum_range_succ']
      omega

theorem exists_course (h : GoesRound Settles condition body Loop again leave)
    {env : Environment ν} {n : Nat} {s : State ν} (hs : Loop env n s) :
    ∃ k start between last asked done, start 0 = env ∧
      Course Settles condition body k start between last asked done ∧ s = ⟨.doNothing, last⟩ := by
  induction n using Nat.strongRecOn generalizing env with
  | ind n ih =>
      rcases h.settles_iff.mp hs with ⟨p, f, hc, rfl, -⟩ | ⟨p, f, q, e, l, hc, hb, hl, rfl⟩
      · exact ⟨0, _, fun _ => f, f, _, fun _ => 0, rfl, .none hc, rfl⟩
      · have hpos := h.pos hc
        obtain ⟨k, start, between, last, asked, done, rfl, hcourse, rfl⟩ := ih l (by omega) hl
        exact ⟨k + 1, _, _, last, _, _, rfl, .cons hc hb hcourse, rfl⟩

end GoesRound

variable [Arithmetic ν]

namespace Term

/-- The steps of a term come to this state, which is terminal. -/
def SettlesInSteps (t : Term ν) (env : Environment ν) (n : Nat) (s : State ν) : Prop :=
  State.Halts ⟨t, env⟩ n (.ok s)

/-- Evaluation of a term answers with this state, and a meter that started at zero shows the
gas. -/
def SettlesOnGas (t : Term ν) (env : Environment ν) (g : Nat) (s : State ν) : Prop :=
  t.Evaluates env .unbounded (.ok s) ⟨g, none⟩

/-- What follows a part that has to hold or not starts from its environment. -/
theorem gives_bind_truth_iff {α : Type} {P : Priced (EvalError ν) (State ν)}
    {Q : Bool → Environment ν → Priced (EvalError ν) α} {n : Nat} {a : α} :
    (P >>= fun s => liftM s.statement.truth >>= fun b => Q b s.environment).Gives n (.ok a) ↔
      ∃ b e k l, P.Gives k (.ok ⟨boolean b, e⟩) ∧ (Q b e).Gives l (.ok a) ∧ n = k + l := by
  rw [Priced.gives_bind_ok_iff]
  constructor
  · intro h
    obtain ⟨⟨t, e⟩, k, l, hP, hQ, hn⟩ := h
    obtain ⟨b, ht, hQ⟩ := Priced.gives_liftM_bind_ok_iff.mp hQ
    obtain rfl : t = boolean b := eq_boolean_of_truth_eq_ok ht
    exact ⟨b, e, k, l, hP, hQ, hn⟩
  · intro h
    obtain ⟨b, e, k, l, hP, hQ, hn⟩ := h
    exact ⟨⟨boolean b, e⟩, k, l, hP, Priced.gives_liftM_bind_ok_iff.mpr ⟨b, rfl, hQ⟩, hn⟩

/-- A round, or the way out, of what is paid for when it is entered, when a branch is chosen
and when the body is dropped. -/
theorem gives_round_iff (C : Priced (EvalError ν) (State ν))
    (B L : Environment ν → Priced (EvalError ν) (State ν)) (enter choose drop : Nat) {n : Nat}
    {s : State ν} :
    Priced.Gives
      (do
        pay enter
        let t ← C
        let holds ← t.statement.truth
        pay choose
        if holds then
          let t' ← B t.environment
          t'.statement.finished
          pay drop
          L t'.environment
        else
          return ⟨doNothing, t.environment⟩) n (.ok s) ↔
      (∃ p f, C.Gives p (.ok ⟨boolean false, f⟩) ∧ s = ⟨doNothing, f⟩ ∧
        n = p + (enter + choose)) ∨
      ∃ p f q e l, C.Gives p (.ok ⟨boolean true, f⟩) ∧ (B f).Gives q (.ok ⟨doNothing, e⟩) ∧
        (L e).Gives l (.ok s) ∧ n = l + (p + q + (enter + choose + drop)) := by
  rw [Priced.gives_pay_bind]
  have hasked := @gives_bind_truth_iff ν _ _ C (fun holds f => do
    pay choose
    if holds then
      let t' ← B f
      t'.statement.finished
      pay drop
      L t'.environment
    else
      return ⟨doNothing, f⟩)
  have hdone (f : Environment ν) := @gives_bind_finished_iff ν _ _ (B f) (fun e => do
    pay drop
    L e)
  constructor
  · intro h
    obtain ⟨_, hround, rfl⟩ := h
    obtain ⟨holds, f, p, _, hc, hchosen, rfl⟩ := hasked.mp hround
    obtain ⟨_, hbranch, rfl⟩ := Priced.gives_pay_bind.mp hchosen
    cases holds with
    | false =>
        obtain ⟨rfl, hs⟩ := hbranch
        cases hs
        exact .inl ⟨p, f, hc, rfl, by omega⟩
    | true =>
        obtain ⟨e, q, _, hb, hdropped, rfl⟩ := (hdone f).mp hbranch
        obtain ⟨l, hl, rfl⟩ := Priced.gives_pay_bind.mp hdropped
        exact .inr ⟨p, f, q, e, l, hc, hb, hl, by omega⟩
  · intro h
    rcases h with ⟨p, f, hc, rfl, rfl⟩ | ⟨p, f, q, e, l, hc, hb, hl, rfl⟩
    · refine ⟨p + choose, hasked.mpr ⟨false, f, p, choose, hc, ?_, rfl⟩, by omega⟩
      exact Priced.gives_pay_bind.mpr ⟨0, ⟨rfl, rfl⟩, rfl⟩
    · refine ⟨p + (choose + (q + (drop + l))), hasked.mpr ⟨true, f, p, _, hc, ?_, rfl⟩, by omega⟩
      refine Priced.gives_pay_bind.mpr ⟨_, (hdone f).mpr ⟨e, q, _, hb, ?_, rfl⟩, rfl⟩
      exact Priced.gives_pay_bind.mpr ⟨l, hl, rfl⟩

theorem goesRound_run (condition body : Term ν) :
    GoesRound SettlesInSteps condition body (whileLoop condition body).SettlesInSteps 3 2 where
  pos _ := Nat.succ_pos _
  settles_iff {env n s} := by
    show ((whileLoop condition body).run env).Gives n (.ok s) ↔ _
    rw [run_whileLoop]
    exact gives_round_iff (condition.run env) body.run (whileLoop condition body).run 1 1 1

theorem goesRound_rounds (condition body : Term ν) :
    GoesRound SettlesOnGas condition body
      (fun env g s => (rounds condition body env).Gives g (.ok s)) 0 0 where
  pos h := pos_of_sweep h
  settles_iff {env n s} := by
    have h := gives_round_iff (condition.sweep env) body.sweep (rounds condition body) 0 0 0
      (n := n) (s := s)
    simp only [Priced.pay_zero_bind] at h
    rw [rounds_eq]
    exact h

/-! ## What a loop comes to -/

section

variable {condition body : Term ν} {k : Nat} {start between : Nat → Environment ν}
  {last env : Environment ν} {asked done : Nat → Nat}

theorem exists_halts_whileLoop_iff {s : State ν} :
    (∃ n, State.Halts ⟨whileLoop condition body, env⟩ n (.ok s)) ↔
      ∃ k start between last asked done, start 0 = env ∧ s = ⟨doNothing, last⟩ ∧
        Course SettlesInSteps condition body k start between last asked done := by
  have hrun := goesRound_run condition body
  constructor
  · intro h
    obtain ⟨n, hn⟩ := h
    obtain ⟨k, start, between, last, asked, done, hstart, hcourse, rfl⟩ := hrun.exists_course hn
    exact ⟨k, start, between, last, asked, done, hstart, rfl, hcourse⟩
  · intro h
    obtain ⟨k, start, between, last, asked, done, rfl, rfl, hcourse⟩ := h
    exact ⟨_, hrun.settles_of_course hcourse⟩

/-- The rounds are the same, whether steps are counted or gas. -/
theorem exists_course_steps_iff_gas :
    (∃ asked done, Course SettlesInSteps condition body k start between last asked done) ↔
      ∃ asked done, Course SettlesOnGas condition body k start between last asked done := by
  constructor
  · intro h
    obtain ⟨asked, done, hcourse⟩ := h
    exact hcourse.exists_converted fun hs => exists_halts_iff_exists_evaluates.mp ⟨_, hs⟩
  · intro h
    obtain ⟨asked, done, hcourse⟩ := h
    exact hcourse.exists_converted fun hs => exists_halts_iff_exists_evaluates.mpr ⟨_, hs⟩

theorem halts_whileLoop_iff_of_course {n : Nat} {answer : Except (EvalError ν) (State ν)}
    (hcourse : Course SettlesInSteps condition body k start between last asked done) :
    State.Halts ⟨whileLoop condition body, start 0⟩ n answer ↔
      n = (∑ i ∈ Finset.range k, (asked i + done i + 3)) + asked k + 2 ∧
        answer = .ok ⟨doNothing, last⟩ := by
  have hhalts := (goesRound_run condition body).settles_of_course hcourse
  constructor
  · intro h
    exact h.unique hhalts
  · rintro ⟨rfl, rfl⟩
    exact hhalts

theorem evaluates_whileLoop_iff_of_course {g : Nat} {answer : Except (EvalError ν) (State ν)}
    (hcourse : Course SettlesOnGas condition body k start between last asked done) :
    (whileLoop condition body).Evaluates (start 0) .unbounded answer ⟨g, none⟩ ↔
      g = 1 + (∑ i ∈ Finset.range k, (asked i + done i)) + asked k ∧
        answer = .ok ⟨doNothing, last⟩ := by
  have hrounds := (goesRound_rounds condition body).settles_of_course hcourse
  have hgives : (whileLoop condition body).Evaluates (start 0) .unbounded (.ok ⟨doNothing, last⟩)
      ⟨1 + (∑ i ∈ Finset.range k, (asked i + done i)) + asked k, none⟩ := by
    show ((whileLoop condition body).sweep (start 0)).Gives _ (.ok ⟨doNothing, last⟩)
    rw [sweep_whileLoop]
    exact Priced.gives_pay_bind.mpr ⟨_, hrounds, Nat.add_assoc ..⟩
  constructor
  · intro h
    obtain ⟨hanswer, hmeter⟩ := h.unique hgives
    exact ⟨congrArg Meter.gas hmeter, hanswer⟩
  · rintro ⟨rfl, rfl⟩
    exact hgives

end

/-- What a loop comes to and what that costs. Without limits the machine returns a state for
a loop if and only if the loop has a course to it, and the same rounds are a course for the
steps and for the gas. Along a course the machine takes the steps of the parts, three more
in each round, and two on the way out; the evaluator is charged for the parts and for
entering the loop. -/
theorem loop_settles_by_its_rounds (condition body : Term ν) (env : Environment ν) :
    (∀ format s,
      (∃ fuel, (Machine.start (whileLoop condition body) env ⟨none, format⟩).run? fuel =
        some (.ok s)) ↔
      ∃ k start between last asked done, start 0 = env ∧ s = ⟨doNothing, last⟩ ∧
        Course SettlesInSteps condition body k start between last asked done) ∧
    ∀ k start between last, start 0 = env →
      ((∃ asked done, Course SettlesInSteps condition body k start between last asked done) ↔
        ∃ asked done, Course SettlesOnGas condition body k start between last asked done) ∧
      (∀ asked done, Course SettlesInSteps condition body k start between last asked done →
        ∀ n answer, State.Halts ⟨whileLoop condition body, env⟩ n answer ↔
          n = (∑ i ∈ Finset.range k, (asked i + done i + 3)) + asked k + 2 ∧
            answer = .ok ⟨doNothing, last⟩) ∧
      ∀ asked done, Course SettlesOnGas condition body k start between last asked done →
        ∀ g answer, (whileLoop condition body).Evaluates env .unbounded answer ⟨g, none⟩ ↔
          g = 1 + (∑ i ∈ Finset.range k, (asked i + done i)) + asked k ∧
            answer = .ok ⟨doNothing, last⟩ := by
  refine ⟨fun format s => exists_run?_iff_exists_halts.trans exists_halts_whileLoop_iff, ?_⟩
  intro k start between last hstart
  subst hstart
  exact ⟨exists_course_steps_iff_gas,
    fun asked done hcourse n answer => halts_whileLoop_iff_of_course hcourse,
    fun asked done hcourse g answer => evaluates_whileLoop_iff_of_course hcourse⟩

/-- From one, tripling goes round twice before it has passed five. -/
theorem tripling_goes_round_twice :
    let condition : Term Int64 := .binary .lessThan (.var "x") (.number 5)
    let body : Term Int64 := .assign "x" (.binary .multiply (.var "x") (.number 3))
    let start : Nat → Environment Int64 := fun i => .ofList [("x", .number (3 ^ i))]
    Course SettlesInSteps condition body 2 start start (start 2) (fun _ => 2) (fun _ => 3) ∧
      Course SettlesOnGas condition body 2 start start (start 2) (fun _ => 3) (fun _ => 4) ∧
      State.Halts ⟨.whileLoop condition body, start 0⟩ 20 (.ok ⟨.doNothing, start 2⟩) ∧
      (whileLoop condition body).Evaluates (start 0) .unbounded (.ok ⟨.doNothing, start 2⟩)
        ⟨18, none⟩ := by
  intro condition body start
  have hsteps : Course SettlesInSteps condition body 2 start start (start 2) (fun _ => 2)
      (fun _ => 3) :=
    { holds := fun
        | 0, _ | 1, _ => ⟨_, rfl, rfl, rfl⟩
      goes := fun
        | 0, _ | 1, _ => ⟨_, rfl, rfl, rfl⟩
      fails := ⟨_, rfl, rfl, rfl⟩ }
  have hgas : Course SettlesOnGas condition body 2 start start (start 2) (fun _ => 3)
      (fun _ => 4) :=
    { holds := fun
        | 0, _ | 1, _ => ⟨0, rfl⟩
      goes := fun
        | 0, _ | 1, _ => ⟨0, rfl⟩
      fails := ⟨0, rfl⟩ }
  obtain ⟨-, hcourses⟩ := loop_settles_by_its_rounds condition body (start 0)
  obtain ⟨-, hhalts, hevaluates⟩ := hcourses 2 start start (start 2) rfl
  exact ⟨hsteps, hgas, (hhalts _ _ hsteps _ _).mpr ⟨rfl, rfl⟩,
    (hevaluates _ _ hgas _ _).mpr ⟨rfl, rfl⟩⟩

end Term

end WhileLang
