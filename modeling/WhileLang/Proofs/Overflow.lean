import Mathlib.Algebra.Group.Int.Defs
import WhileLang.Proofs.Decomposition
import WhileLang.Proofs.Exact

/-!
# Words compute with integers until a result is too large

A program on 64-bit words is followed beside the same program on the integers. As
long as the second has not come to a sum or a product that no word stands for, the
two are in the same state; nothing has wrapped around and nothing was reported
early. Where it first does, the first program stops, with the operator and the two
operands that the second one has there. If it never does, the two runs are one run.

The step lemma is that of `exact_reduce`, read from the side of the integers: a word
has the integer's place in every step whose result is in range. The run lemma is an
induction on the number of steps, in which only the steps already taken have to be in
range (`after_exact`). All the rest is about the first step that is not.

Both programs read the same rules, so that they agree would be true of wrong rules, too.
What the second one computes is therefore said by itself: wherever in a program an operator
stands between two integers, a step puts their sum or product there, or the truth of the
comparison (`reduce_nest_binary`).
-/

namespace WhileLang

/-- The sum or the product of these integers is not a number of 64 bits. -/
def Operator.Overflows : Operator → Int → Int → Prop
  | add, a, b => ¬ (-2 ^ 63 ≤ a + b ∧ a + b ≤ 2 ^ 63 - 1)
  | multiply, a, b => ¬ (-2 ^ 63 ≤ a * b ∧ a * b ≤ 2 ^ 63 - 1)
  | lessThan, _, _ | greaterThan, _, _ => False

instance (op : Operator) (a b : Int) : Decidable (op.Overflows a b) :=
  match op with
  | .add | .multiply => inferInstanceAs (Decidable (¬ _))
  | .lessThan | .greaterThan => inferInstanceAs (Decidable False)

theorem ofInt?_int64_eq_none_iff {i : Int} :
    (Arithmetic.ofInt? i : Option Int64) = none ↔ ¬ (-2 ^ 63 ≤ i ∧ i ≤ 2 ^ 63 - 1) := by
  have hmin : Int64.minValue.toInt = -2 ^ 63 := rfl
  have hmax : Int64.maxValue.toInt = 2 ^ 63 - 1 := rfl
  show (if _ then some _ else none) = none ↔ _
  rw [hmin, hmax]
  split
  · next h => exact ⟨nofun, fun hn => absurd h hn⟩
  · next h => exact ⟨fun _ => h, fun _ => rfl⟩

/-- An operator overflows where its exact result is a number that no word stands for. -/
theorem Operator.overflows_iff {op : Operator} {a b : Int} :
    op.Overflows a b ↔
      ∃ i, op.exact a b = .number i ∧ (Arithmetic.ofInt? i : Option Int64) = none := by
  cases op with
  | add | multiply =>
      refine ⟨fun h => ⟨_, rfl, ofInt?_int64_eq_none_iff.mpr h⟩, fun h => ?_⟩
      obtain ⟨i, hi, hnone⟩ := h
      cases hi
      exact ofInt?_int64_eq_none_iff.mp hnone
  | lessThan | greaterThan =>
      refine ⟨False.elim, fun h => ?_⟩
      obtain ⟨i, hi, -⟩ := h
      cases hi

/-- Among the integers an operator always has a result, and a step puts it in its place. -/
theorem Frame.reduce_nest_binary (frames : List (Frame Int)) (op : Operator) (a b : Int)
    (env : Environment Int) :
    (nest frames (.binary op (.number a) (.number b))).reduce env =
      .ok ⟨nest frames (.ofValue (op.exact a b)), env⟩ := by
  rw [reduce_nest frames rfl]
  cases op <;> rfl

namespace State

/-- The next step is that of an operator between these two numbers, and its result is
not a number of 64 bits. -/
def Overflows (s : State Int) (op : Operator) (a b : Int) : Prop :=
  s.statement.redex = .binary op (.number a) (.number b) ∧ op.Overflows a b

/-- The step after so many others is such a step. -/
def OverflowsAt (s : State Int) (n : Nat) (op : Operator) (a b : Int) : Prop :=
  ∃ t, after n s = .ok t ∧ t.Overflows op a b

/-- So many steps are taken before the first such step. -/
def FirstOverflow (s : State Int) (n : Nat) (op : Operator) (a b : Int) : Prop :=
  s.OverflowsAt n op a b ∧ ∀ i < n, ∀ op' a' b', ¬ s.OverflowsAt i op' a' b'

/-! ## One step -/

/-- Where the integers leave the range the words stop, with the same operands. -/
theorem overflows_exact_iff {s : State Int64} {op : Operator} {a b : Int} :
    s.exact.Overflows op a b ↔ ∃ a' b' : Int64, a'.toInt = a ∧ b'.toInt = b ∧
      s.step = .error (.arithmeticOverflow op a' b') := by
  constructor
  · rintro ⟨hredex, hover⟩
    have hredex : s.statement.redex.exact = .binary op (.number a) (.number b) :=
      (Term.redex_exact s.statement).symm.trans hredex
    obtain ⟨left, right, hs, hl, hr⟩ := Term.exact_eq_binary hredex
    obtain ⟨a', rfl, rfl⟩ := Term.exact_eq_number hl
    obtain ⟨b', rfl, rfl⟩ := Term.exact_eq_number hr
    have hresult := Operator.overflows_iff.mp hover
    exact ⟨a', b', rfl, rfl, Term.reduce_eq_overflow_iff.mpr ⟨hs, hresult⟩⟩
  · rintro ⟨a', b', rfl, rfl, hstep⟩
    obtain ⟨hs, hresult⟩ := Term.reduce_eq_overflow_iff.mp hstep
    have hredex := Term.redex_exact s.statement
    rw [hs] at hredex
    exact ⟨hredex, Operator.overflows_iff.mpr hresult⟩

theorem step_exact {s : State Int64} (h : ∀ op a b, ¬ s.exact.Overflows op a b) :
    s.exact.step = exactly State.exact s.step := by
  symm
  refine Term.exact_reduce fun op a b hstep => ?_
  exact h op a.toInt b.toInt (overflows_exact_iff.mpr ⟨a, b, rfl, rfl, hstep⟩)

/-- Among the integers nothing overflows. -/
theorem step_int_ne_overflow (s : State Int) (op : Operator) (a b : Int) :
    s.step ≠ .error (.arithmeticOverflow op a b) := by
  intro hstep
  obtain ⟨-, i, -, hnone⟩ := Term.reduce_eq_overflow_iff.mp hstep
  cases hnone

/-! ## Any number of steps -/

theorem overflowsAt_succ {s next : State Int} (hstep : s.step = .ok next) {n : Nat}
    {op : Operator} {a b : Int} : s.OverflowsAt (n + 1) op a b ↔ next.OverflowsAt n op a b := by
  rw [OverflowsAt, OverflowsAt, after_succ_of_step hstep]

/-- Before the first overflow the two runs are the same. -/
theorem after_exact {s : State Int64} {n : Nat}
    (h : ∀ i < n, ∀ op a b, ¬ s.exact.OverflowsAt i op a b) :
    after n s.exact = exactly State.exact (after n s) := by
  induction n generalizing s with
  | zero => rfl
  | succ n ih =>
      have hstep : s.exact.step = exactly State.exact s.step :=
        step_exact fun op a b ho => h 0 (Nat.succ_pos n) op a b ⟨_, rfl, ho⟩
      rw [after, after, hstep]
      symm
      refine exactly_bind _ fun next hnext => ?_
      rw [hnext] at hstep
      refine (ih fun i hi op a b ho => ?_).symm
      exact h (i + 1) (by omega) op a b ((overflowsAt_succ hstep).mpr ho)

theorem FirstOverflow.stops {s : State Int64} {n : Nat} {op : Operator} {a b : Int}
    (h : s.exact.FirstOverflow n op a b) :
    ∃ (t : State Int64) (a' b' : Int64), after n s = .ok t ∧ after n s.exact = .ok t.exact ∧
      a'.toInt = a ∧ b'.toInt = b ∧ t.step = .error (.arithmeticOverflow op a' b') := by
  obtain ⟨⟨u, hu, ho⟩, hfirst⟩ := h
  have hsame := after_exact hfirst
  rw [hu] at hsame
  cases ht : after n s with
  | error e =>
      rw [ht] at hsame
      cases hsame
  | ok t =>
      rw [ht] at hsame
      cases hsame
      obtain ⟨a', b', ha, hb, hstep⟩ := overflows_exact_iff.mp ho
      exact ⟨t, a', b', rfl, hu, ha, hb, hstep⟩

/-- An overflow is reported at the first step whose result is out of range. -/
theorem firstOverflow_of_step {s t : State Int64} {n : Nat} {op : Operator} {a b : Int64}
    (hafter : after n s = .ok t) (hstep : t.step = .error (.arithmeticOverflow op a b)) :
    s.exact.FirstOverflow n op a.toInt b.toInt := by
  induction n generalizing s with
  | zero =>
      cases hafter
      refine ⟨⟨_, rfl, overflows_exact_iff.mpr ⟨a, b, rfl, rfl, hstep⟩⟩, ?_⟩
      intro i hi
      omega
  | succ n ih =>
      obtain ⟨next, hnext, hafter⟩ := after_succ_eq_ok_iff.mp hafter
      have hnone : ∀ op a b, ¬ s.exact.Overflows op a b := by
        intro op a b ho
        obtain ⟨a', b', -, -, hs⟩ := overflows_exact_iff.mp ho
        rw [hnext] at hs
        cases hs
      have hsame := step_exact hnone
      rw [hnext] at hsame
      obtain ⟨hat, hfirst⟩ := ih hafter
      refine ⟨(overflowsAt_succ hsame).mpr hat, fun i hi op' a' b' ho => ?_⟩
      cases i with
      | zero =>
          obtain ⟨u, hu, ho⟩ := ho
          cases hu
          exact hnone op' a' b' ho
      | succ i =>
          exact hfirst i (by omega) op' a' b' ((overflowsAt_succ hsame).mp ho)

/-! ## Results -/

theorem not_terminal_of_overflow {s : State Int64} {op : Operator} {a b : Int64}
    (h : s.step = .error (.arithmeticOverflow op a b)) : s.isTerminal = false := by
  cases ht : s.isTerminal with
  | false => rfl
  | true =>
      rw [step_of_terminal ht] at h
      cases h

theorem isTerminal_exact (s : State Int64) : s.exact.isTerminal = s.isTerminal :=
  congrArg Bool.not (Term.isReducible_exact s.statement)

theorem translates_exact : Translates (exact (ν := Int64)) (exactly exact) where
  ok _ := rfl
  error e := ⟨e.exact, rfl⟩
  isTerminal := isTerminal_exact

theorem halts_exact_iff {s : State Int64} (h : ∀ n op a b, ¬ s.exact.OverflowsAt n op a b)
    {n : Nat} {answer : Except (EvalError Int) (State Int)} :
    s.exact.Halts n answer ↔
      ∃ answer', s.Halts n answer' ∧ answer = exactly State.exact answer' := by
  have hsame : after n s.exact = exactly State.exact (after n s) := after_exact fun i _ => h i
  refine translates_exact.halts_iff hsame fun t ht => step_exact fun op a b ho => ?_
  rw [ht] at hsame
  exact h n op a b ⟨_, hsame, ho⟩

end State

open State

/-- The integers compute sums, products and comparisons, wherever in a program these stand.
From the same state, a run on words of 64 bits and one on the integers are the same
step by step until the second first comes to a sum or product out of range. At that
step the first run stops with an overflow that names the operator and both operands,
and it reports an overflow at no other step; the integers never report one. If there
is no such step the two runs end alike, if they end. The results of evaluation
correspond in the same way. -/
theorem words_compute_exactly_until_overflow (s : State Int64) :
    (∀ (frames : List (Frame Int)) (env : Environment Int) (a b : Int),
      (Frame.nest frames (.binary .add (.number a) (.number b))).reduce env =
        .ok ⟨Frame.nest frames (.number (a + b)), env⟩ ∧
      (Frame.nest frames (.binary .multiply (.number a) (.number b))).reduce env =
        .ok ⟨Frame.nest frames (.number (a * b)), env⟩ ∧
      (Frame.nest frames (.binary .lessThan (.number a) (.number b))).reduce env =
        .ok ⟨Frame.nest frames (.boolean (decide (a < b))), env⟩ ∧
      (Frame.nest frames (.binary .greaterThan (.number a) (.number b))).reduce env =
        .ok ⟨Frame.nest frames (.boolean (decide (b < a))), env⟩) ∧
    (∀ n, (∀ i < n, ∀ op a b, ¬ s.exact.OverflowsAt i op a b) →
      after n s.exact = exactly State.exact (after n s)) ∧
    (∀ n op a b, s.exact.FirstOverflow n op a b →
      ∃ (t : State Int64) (a' b' : Int64), after n s = .ok t ∧ after n s.exact = .ok t.exact ∧
        a'.toInt = a ∧ b'.toInt = b ∧ t.step = .error (.arithmeticOverflow op a' b')) ∧
    (∀ n t op a b, after n s = .ok t → t.step = .error (.arithmeticOverflow op a b) →
      s.exact.FirstOverflow n op a.toInt b.toInt) ∧
    (∀ (t : State Int) op a b, t.step ≠ .error (.arithmeticOverflow op a b)) ∧
    ((∀ n op a b, ¬ s.exact.OverflowsAt n op a b) → ∀ answer,
      (∀ n, s.exact.Halts n answer ↔
        ∃ answer', s.Halts n answer' ∧ answer = exactly State.exact answer') ∧
      ((∃ rounds, s.exact.statement.normalForm? rounds s.exact.environment = some answer) ↔
        ∃ answer', (∃ rounds, s.statement.normalForm? rounds s.environment = some answer') ∧
          answer = exactly State.exact answer')) ∧
    (∀ op (a b : Int64), (∃ n, s.exact.FirstOverflow n op a.toInt b.toInt) ↔
      ∃ rounds, s.statement.normalForm? rounds s.environment =
        some (.error (.arithmeticOverflow op a b))) := by
  refine ⟨fun frames env a b => ?_, fun n h => after_exact h, fun n op a b h => h.stops,
    fun n t op a b hafter hstep => firstOverflow_of_step hafter hstep, step_int_ne_overflow, ?_, ?_⟩
  · exact ⟨Frame.reduce_nest_binary frames .add a b env,
      Frame.reduce_nest_binary frames .multiply a b env,
      Frame.reduce_nest_binary frames .lessThan a b env,
      Frame.reduce_nest_binary frames .greaterThan a b env⟩
  · intro h answer
    refine ⟨fun n => halts_exact_iff h, ?_⟩
    rw [Term.exists_normalForm?_iff_exists_halts]
    constructor
    · rintro ⟨n, hn⟩
      obtain ⟨answer', hn', heq⟩ := (halts_exact_iff h).mp hn
      exact ⟨answer', Term.exists_normalForm?_iff_exists_halts.mpr ⟨n, hn'⟩, heq⟩
    · rintro ⟨answer', hr, heq⟩
      obtain ⟨n, hn⟩ := Term.exists_normalForm?_iff_exists_halts.mp hr
      exact ⟨n, (halts_exact_iff h).mpr ⟨answer', hn, heq⟩⟩
  · intro op a b
    rw [Term.exists_normalForm?_iff_exists_halts]
    constructor
    · rintro ⟨n, hfirst⟩
      obtain ⟨t, a', b', hafter, -, ha, hb, hstep⟩ := hfirst.stops
      obtain rfl : a' = a := Int64.toInt_inj.mp ha
      obtain rfl : b' = b := Int64.toInt_inj.mp hb
      exact ⟨n, t, hafter, not_terminal_of_overflow hstep, hstep⟩
    · rintro ⟨n, t, hafter, -, hstep⟩
      exact ⟨n, firstOverflow_of_step hafter hstep⟩

/-- Of two programs the first overflows in its second step, and its evaluation says so;
the second never does, and both on words and among the integers it ends with the sum and
the product that it computes. -/
theorem overflow_in_second_step_and_never :
    (State.exact ⟨.binary .add (.var "x") (.number 1),
        Environment.empty.insert "x" (.number Int64.maxValue)⟩).FirstOverflow 1 .add
      Int64.maxValue.toInt (1 : Int64).toInt ∧
    (∃ rounds, (Term.binary .add (.var "x") (.number 1)).normalForm? rounds
        (Environment.empty.insert "x" (.number Int64.maxValue)) =
      some (.error (.arithmeticOverflow .add Int64.maxValue 1))) ∧
    let s : State Int64 := ⟨.assign "x" (.binary .add (.binary .multiply (.number 3) (.number 4))
      (.number (-5))), .empty⟩
    (∀ n op a b, ¬ s.exact.OverflowsAt n op a b) ∧
    s.Halts 3 (.ok ⟨.doNothing, Environment.empty.insert "x" (.number 7)⟩) ∧
    s.exact.Halts 3 (.ok ⟨.doNothing, Environment.empty.insert "x" (.number 7)⟩) := by
  have hfirst : (State.exact ⟨.binary .add (.var "x") (.number 1),
      Environment.empty.insert "x" (.number Int64.maxValue)⟩).FirstOverflow 1 .add
        Int64.maxValue.toInt (1 : Int64).toInt := by
    refine ⟨⟨_, rfl, rfl, by decide⟩, ?_⟩
    rintro i hi op a b ⟨t, ht, hredex, -⟩
    obtain rfl : i = 0 := by omega
    cases ht
    cases hredex
  obtain ⟨-, -, -, -, -, -, hoverflow⟩ := words_compute_exactly_until_overflow
    ⟨.binary .add (.var "x") (.number 1), Environment.empty.insert "x" (.number Int64.maxValue)⟩
  refine ⟨hfirst, (hoverflow .add Int64.maxValue 1).mp ⟨1, hfirst⟩, ?_⟩
  intro s
  have hnone : ∀ n op a b, ¬ s.exact.OverflowsAt n op a b := by
    rintro n op a b ⟨t, ht, hredex, hover⟩
    match n with
    | 0 | 1 =>
        cases ht
        cases hredex
        exact absurd hover (by decide)
    | 2 | 3 =>
        cases ht
        cases hredex
    | n + 4 => cases ht
  have hends : s.Halts 3 (.ok ⟨.doNothing, Environment.empty.insert "x" (.number 7)⟩) :=
    ⟨_, rfl, rfl, rfl⟩
  obtain ⟨-, -, -, -, -, hsame, -⟩ := words_compute_exactly_until_overflow s
  exact ⟨hnone, hends, ((hsame hnone _).1 3).mpr ⟨_, hends, rfl⟩⟩

end WhileLang
