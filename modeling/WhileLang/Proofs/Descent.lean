import WhileLang.Proofs.Agreement
import WhileLang.Proofs.Decomposition
import WhileLang.Proofs.Growth

/-!
# Only unrolling keeps a run going

A step may make a statement smaller, or leave its size as it is, or make it larger; but it
uses up its redex. What comes of a redex is settled, or is a part of it that was there
before, and in both cases there are fewer reducible terms than with the redex. The nest
around it adds the same number to both sides (`exists_counts_nest`), so the count goes down
from step to step. The one exception is the loop that is unrolled, which comes back in
what becomes of it.

The same argument says that no other step makes a loop. A program without loops never gets
to unroll one, and its run is over before the count has run out. An evaluation in one
sweep has no terms to count on its way, but it visits each part of such a program at most
once; that is an induction over the program (`sweep_endsWithin`).
-/

namespace WhileLang

open Priced (pay)

variable {ν : Type}

namespace Term

/-- The number of reducible terms in a term, itself included. -/
def reducibles : Term ν → Nat
  | number _ | boolean _ | doNothing => 0
  | var _ => 1
  | binary _ left right => left.reducibles + right.reducibles + 1
  | assign _ expression => expression.reducibles + 1
  | ifElse condition consequence alternative =>
      condition.reducibles + consequence.reducibles + alternative.reducibles + 1
  | sequence first second => first.reducibles + second.reducibles + 1
  | whileLoop condition body => condition.reducibles + body.reducibles + 1

/-- Whether the next step unrolls a loop. -/
def unrolls (t : Term ν) : Bool :=
  match t.redex with
  | whileLoop .. => true
  | _ => false

theorem reducibles_pos {t : Term ν} (h : t.isReducible = true) : 0 < t.reducibles := by
  cases t with
  | number | boolean | doNothing => cases h
  | _ => exact Nat.succ_pos _

theorem reducibles_ofValue (v : Value ν) : (ofValue v).reducibles = 0 := by
  cases v <;> rfl

theorem loops_ofValue (v : Value ν) : (ofValue v).loops = 0 := by
  cases v <;> rfl

theorem unrolls_eq_true_iff {t : Term ν} :
    t.unrolls = true ↔ ∃ condition body, t.redex = whileLoop condition body := by
  rw [unrolls]
  cases t.redex <;> simp

end Term

/-! ## What a step does to the counts -/

namespace Frame

/-- A frame adds the same whatever the part in it. -/
theorem exists_counts_fill (f : Frame ν) :
    ∃ m n, ∀ t : Term ν, (f.fill t).reducibles = t.reducibles + m ∧
      (f.fill t).loops = t.loops + n := by
  cases f with
  | leftOperand op right => exact ⟨right.reducibles + 1, right.loops, fun t => ⟨rfl, rfl⟩⟩
  | rightOperand op left settled =>
      refine ⟨left.reducibles + 1, left.loops, fun t => ⟨?_, Nat.add_comm ..⟩⟩
      rw [fill, Term.reducibles]
      omega
  | assigned name => exact ⟨1, 0, fun t => ⟨rfl, rfl⟩⟩
  | condition consequence alternative =>
      refine ⟨consequence.reducibles + alternative.reducibles + 1,
        consequence.loops + alternative.loops, fun t => ⟨?_, Nat.add_assoc ..⟩⟩
      rw [fill, Term.reducibles]
      omega
  | first second => exact ⟨second.reducibles + 1, second.loops, fun t => ⟨rfl, rfl⟩⟩

theorem exists_counts_nest (frames : List (Frame ν)) :
    ∃ m n, ∀ t : Term ν, (nest frames t).reducibles = t.reducibles + m ∧
      (nest frames t).loops = t.loops + n := by
  induction frames with
  | nil => exact ⟨0, 0, fun t => ⟨rfl, rfl⟩⟩
  | cons f frames ih =>
      obtain ⟨m, n, ih⟩ := ih
      obtain ⟨i, j, hfill⟩ := f.exists_counts_fill
      refine ⟨m + i, n + j, fun t => ?_⟩
      rw [nest_cons, (hfill _).1, (hfill _).2, (ih t).1, (ih t).2]
      exact ⟨Nat.add_assoc .., Nat.add_assoc ..⟩

end Frame

namespace Term

theorem loops_pos_of_unrolls {t : Term ν} (h : t.unrolls = true) : 0 < t.loops := by
  obtain ⟨condition, body, hredex⟩ := unrolls_eq_true_iff.mp h
  obtain ⟨m, n, hnest⟩ := Frame.exists_counts_nest t.position
  have hloops : t.loops = t.redex.loops + n := by
    have h := (hnest t.redex).2
    rwa [Frame.nest_position] at h
  rw [hloops, hredex, loops]
  omega

theorem unrolls_eq_false_of_loops_eq_zero {t : Term ν} (h : t.loops = 0) :
    t.unrolls = false := by
  cases hu : t.unrolls with
  | false => rfl
  | true =>
      have hpos := loops_pos_of_unrolls hu
      omega

variable [Arithmetic ν] {t : Term ν} {env : Environment ν} {s : State ν}

/-- A redex is used up in its contraction, and unless it is a loop, nothing comes in its place
that was not in it. -/
theorem Contracts.descends (h : t.Contracts env s)
    (hloop : ∀ condition body, t ≠ .whileLoop condition body) :
    s.statement.reducibles < t.reducibles ∧ s.statement.loops ≤ t.loops := by
  cases h with
  | var =>
      rw [reducibles_ofValue, loops_ofValue]
      exact ⟨Nat.succ_pos _, Nat.zero_le _⟩
  | binary =>
      rw [reducibles_ofValue, loops_ofValue]
      exact ⟨Nat.succ_pos _, Nat.zero_le _⟩
  | assign => exact ⟨Nat.succ_pos _, Nat.zero_le _⟩
  | ifTrue | ifFalse | sequence =>
      simp only [reducibles, loops]
      omega
  | whileLoop condition body => exact absurd rfl (hloop condition body)

theorem reduce_descends (h : t.reduce env = .ok s) (hno : t.unrolls = false) :
    s.statement.reducibles < t.reducibles ∧ s.statement.loops ≤ t.loops := by
  obtain ⟨c, hc, rfl⟩ := reduce_eq_ok_iff.mp h
  have hloop : ∀ condition body, t.redex ≠ whileLoop condition body := by
    intro condition body hredex
    have htrue : t.unrolls = true := unrolls_eq_true_iff.mpr ⟨condition, body, hredex⟩
    rw [htrue] at hno
    cases hno
  have hplace := hc.descends hloop
  obtain ⟨m, n, hnest⟩ := Frame.exists_counts_nest t.position
  have hbefore := hnest t.redex
  have hafter := hnest c.statement
  rw [Frame.nest_position] at hbefore
  show (Frame.nest t.position c.statement).reducibles < _ ∧
    (Frame.nest t.position c.statement).loops ≤ _
  omega

/-! ## Runs -/

/-- As long as no loop is unrolled, each step is paid for by the count. -/
theorem add_reducibles_le_of_not_unrolls {n : Nat} (h : State.after n ⟨t, env⟩ = .ok s)
    (hno : ∀ j u, j < n → State.after j ⟨t, env⟩ = .ok u → u.statement.unrolls = false) :
    n + s.statement.reducibles ≤ t.reducibles := by
  induction n generalizing t env with
  | zero =>
      cases h
      exact Nat.le_of_eq (Nat.zero_add _)
  | succ n ih =>
      obtain ⟨next, hnext, h⟩ := State.after_succ_eq_ok_iff.mp h
      have hfirst : next.statement.reducibles < t.reducibles :=
        (reduce_descends hnext (hno 0 _ (Nat.succ_pos n) rfl)).1
      have hrest := ih h fun j u hj hu =>
        hno (j + 1) u (Nat.succ_lt_succ hj) (State.after_succ_eq_ok_iff.mpr ⟨next, hnext, hu⟩)
      omega

theorem loops_after_eq_zero {n : Nat} (h : State.after n ⟨t, env⟩ = .ok s) (ht : t.loops = 0) :
    s.statement.loops = 0 := by
  refine State.after_induction (motive := fun u => u.statement.loops = 0) h ht ?_
  intro u next hu hnext
  have hle : next.statement.loops ≤ u.statement.loops :=
    (reduce_descends hnext (unrolls_eq_false_of_loops_eq_zero hu)).2
  omega

theorem exists_halts_of_loops_eq_zero (ht : t.loops = 0) (env : Environment ν) :
    ∃ n answer, n ≤ t.reducibles ∧ State.Halts ⟨t, env⟩ n answer := by
  refine Classical.byContradiction fun hno => ?_
  -- The count would be used up, and still there would be something to reduce.
  have hlive : State.Live ⟨t, env⟩ t.reducibles :=
    State.live_of_not_halts (fun i s hi hs => hno ⟨i, _, hi, hs⟩)
      fun i e hi he => hno ⟨i, _, Nat.le_of_lt hi, he⟩
  obtain ⟨u, hu, hterminal⟩ := hlive
  have hpos := reducibles_pos (State.isTerminal_eq_false_iff.mp hterminal)
  have hle := add_reducibles_le_of_not_unrolls hu fun j v _ hv =>
    unrolls_eq_false_of_loops_eq_zero (loops_after_eq_zero hv ht)
  omega

end Term

/-! ## Sweeps -/

namespace Priced

variable {ε α β : Type} {M N : Nat} {P : Priced ε α}

/-- There is an answer for no more than this. -/
def EndsWithin (N : Nat) (P : Priced ε α) : Prop :=
  ∃ n answer, n ≤ N ∧ P.Gives n answer

namespace EndsWithin

theorem pure (a : α) : EndsWithin N (pure a : Priced ε α) :=
  ⟨0, .ok a, Nat.zero_le N, rfl, rfl⟩

theorem mono (hle : M ≤ N) (h : P.EndsWithin M) : P.EndsWithin N := by
  obtain ⟨n, answer, hn, hP⟩ := h
  exact ⟨n, answer, Nat.le_trans hn hle, hP⟩

theorem pay_bind {Q : Unit → Priced ε α} (h : (Q ()).EndsWithin N) :
    EndsWithin (N + 1) (pay 1 >>= Q) := by
  obtain ⟨n, answer, hn, hQ⟩ := h
  exact ⟨1 + n, answer, by omega, gives_pay_bind.mpr ⟨n, hQ, rfl⟩⟩

theorem bind {Q : α → Priced ε β} (hP : P.EndsWithin M) (hQ : ∀ a, (Q a).EndsWithin N) :
    (P >>= Q).EndsWithin (M + N) := by
  obtain ⟨n, answer, hn, hP⟩ := hP
  cases answer with
  | error e => exact ⟨n, .error e, by omega, hP.bind_error⟩
  | ok a =>
      obtain ⟨k, answer, hk, hQ⟩ := hQ a
      exact ⟨n + k, answer, by omega, hP.bind hQ⟩

theorem lift_bind (x : Except ε α) {Q : α → Priced ε β} (hQ : ∀ a, (Q a).EndsWithin N) :
    EndsWithin N (liftM x >>= Q) := by
  have hlift : EndsWithin 0 (liftM x : Priced ε α) := ⟨0, x, Nat.le_refl 0, rfl, rfl⟩
  exact (hlift.bind hQ).mono (by omega)

end EndsWithin

end Priced

variable [Arithmetic ν]

namespace Term

/-- Without loops, no part of a program is visited twice. -/
theorem sweep_endsWithin {t : Term ν} (ht : t.loops = 0) (env : Environment ν) :
    (t.sweep env).EndsWithin t.size := by
  induction t generalizing env with
  | number | boolean | doNothing =>
      rw [sweep_of_settled rfl]
      exact .pay_bind (.pure _)
  | var name =>
      rw [sweep_var]
      exact .pay_bind (.lift_bind _ fun v => .pure _)
  | binary op left right ihl ihr =>
      have ht : left.loops + right.loops = 0 := ht
      rw [sweep_binary]
      refine .pay_bind (.bind (ihl (by omega) env) fun l => ?_)
      refine .bind (N := 0) (ihr (by omega) l.environment) fun r => ?_
      exact .lift_bind _ fun a => .lift_bind _ fun b => .lift_bind _ fun v => .pure _
  | assign name expression ih =>
      rw [sweep_assign]
      refine .pay_bind (.bind (N := 0) (ih ht env) fun s => ?_)
      exact .lift_bind _ fun v => .pure _
  | ifElse condition consequence alternative ihc iht ihe =>
      have ht : condition.loops + consequence.loops + alternative.loops = 0 := ht
      have hbranch : ∀ (holds : Bool) (e : Environment ν),
          ((if holds then consequence else alternative).sweep e).EndsWithin
            (consequence.size + alternative.size) := by
        intro holds e
        cases holds with
        | true => exact (iht (by omega) e).mono (Nat.le_add_right ..)
        | false => exact (ihe (by omega) e).mono (Nat.le_add_left ..)
      rw [sweep_ifElse, size, Nat.add_assoc condition.size]
      refine .pay_bind (.bind (ihc (by omega) env) fun s => ?_)
      exact .lift_bind _ fun holds => hbranch holds s.environment
  | sequence first second ihf ihs =>
      have ht : first.loops + second.loops = 0 := ht
      rw [sweep_sequence]
      refine .pay_bind (.bind (ihf (by omega) env) fun s => ?_)
      exact .lift_bind _ fun _ => ihs (by omega) s.environment
  | whileLoop condition body => cases ht

/-- Only the unrolling of a loop keeps a run going. Any other step leaves fewer reducible
terms than there were; so wherever in a run a stretch begins in which no loop is unrolled,
it has as many steps as there are reducible terms at its start, less those at its end, or
fewer. A program without loops always stops, with a result or an error, after at most as
many steps as there are reducible terms in it, and its evaluation is charged for at most as
many visits as there are terms. -/
theorem only_unrolling_keeps_running (t : Term ν) (env : Environment ν) :
    (∀ s, t.reduce env = .ok s → t.unrolls = false → s.statement.reducibles < t.reducibles) ∧
    (∀ i n s u, State.after i ⟨t, env⟩ = .ok s → State.after (i + n) ⟨t, env⟩ = .ok u →
      (∀ j v, i ≤ j → j < i + n → State.after j ⟨t, env⟩ = .ok v → v.statement.unrolls = false) →
      n + u.statement.reducibles ≤ s.statement.reducibles) ∧
    (t.loops = 0 → ∃ answer n g, n ≤ t.reducibles ∧ State.Halts ⟨t, env⟩ n answer ∧
      (∀ format, ∃ fuel, (Machine.start t env ⟨none, format⟩).run? fuel = some answer) ∧
      g ≤ t.size ∧ t.Evaluates env .unbounded answer ⟨g, none⟩) := by
  refine ⟨fun s hs hno => (reduce_descends hs hno).1, fun i n s u hs hu hno => ?_, fun ht => ?_⟩
  · rw [State.after_add hs] at hu
    refine add_reducibles_le_of_not_unrolls hu fun j v hj hv => ?_
    rw [← State.after_add hs] at hv
    exact hno (i + j) v (Nat.le_add_right i j) (Nat.add_lt_add_left hj i) hv
  · obtain ⟨n, answer, hn, hhalts⟩ := exists_halts_of_loops_eq_zero ht env
    obtain ⟨g, answer', hg, hsweep⟩ := sweep_endsWithin ht env
    obtain ⟨g', hg'⟩ := exists_halts_iff_exists_evaluates.mp ⟨n, hhalts⟩
    obtain ⟨rfl, -⟩ := Evaluates.unique hg' hsweep
    exact ⟨answer, n, g, hn, hhalts, fun _ => exists_run?_iff_exists_halts.mpr ⟨n, hhalts⟩, hg,
      hsweep⟩

/-- Seven steps after a loop with six reducible terms was unrolled, it is about to be unrolled
again, and what it was unrolled to had thirteen; its body stops by itself. -/
theorem round_uses_up_what_was_unrolled :
    let condition : Term Int64 := .binary .lessThan (.var "x") (.number 1)
    let body : Term Int64 := .assign "x" (.binary .add (.var "x") (.number 1))
    let loop : Term Int64 := .whileLoop condition body
    let env : Int64 → Environment Int64 := fun n => .ofList [("x", .number n)]
    let s : State Int64 := ⟨.ifElse condition (.sequence body loop) .doNothing, env 0⟩
    let next : State Int64 := ⟨.assign "x" (.binary .add (.number 0) (.number 1)), env 0⟩
    (State.after 1 ⟨loop, env 0⟩ = .ok s ∧ State.after 8 ⟨loop, env 0⟩ = .ok ⟨loop, env 1⟩ ∧
      7 + loop.reducibles ≤ s.statement.reducibles ∧ s.statement.reducibles = 7 + 6) ∧
    (body.reduce (env 0) = .ok next ∧ next.statement.reducibles < body.reducibles) ∧
    ∃ answer n g, n ≤ 3 ∧ State.Halts ⟨body, env 0⟩ n answer ∧
      (∀ format, ∃ fuel, (Machine.start body (env 0) ⟨none, format⟩).run? fuel = some answer) ∧
      g ≤ 4 ∧ body.Evaluates (env 0) .unbounded answer ⟨g, none⟩ := by
  intro condition body loop env s next
  have hs : State.after 1 ⟨loop, env 0⟩ = .ok s := rfl
  have hround : State.after (1 + 7) ⟨loop, env 0⟩ = .ok ⟨loop, env 1⟩ := rfl
  have hno : ∀ j v, 1 ≤ j → j < 1 + 7 → State.after j ⟨loop, env 0⟩ = .ok v →
      v.statement.unrolls = false := by
    intro j v hfrom hto hv
    match j, hfrom, hto with
    | 1, _, _ | 2, _, _ | 3, _, _ | 4, _, _ | 5, _, _ | 6, _, _ | 7, _, _ =>
        cases hv
        rfl
  have hnext : body.reduce (env 0) = .ok next := rfl
  obtain ⟨-, hstretch, -⟩ := only_unrolling_keeps_running loop (env 0)
  obtain ⟨hstep, -, hstops⟩ := only_unrolling_keeps_running body (env 0)
  exact ⟨⟨hs, hround, hstretch 1 7 s ⟨loop, env 1⟩ hs hround hno, rfl⟩,
    ⟨hnext, hstep next hnext rfl⟩, hstops rfl⟩

end Term

end WhileLang
