import WhileLang.Proofs.Contraction

/-!
# Unrolling does not accumulate

To unroll a loop is the one step that makes a statement larger: it puts a copy of the
condition and of the body in front of the loop. The copies are used up before the loop
comes round again, but inside them other loops are unrolled in the meantime, and a run
may go on like this for ever. Neither the size of the statement nor the bound that is
wanted in the end goes down from step to step.

What does not go up is the `peak`: the size to which a term and all that it becomes can
grow. It is found from the parts. Those still to come count as they stand, since they are
not run yet; those that are over count as settled; so each place where a part is run gives
one number, and the largest is taken. A loop has the peak of what it unrolls to. That the
peak is at most the size and, for each loop, two more than the size again is then a fact
about terms, and runs have no part in it.
-/

namespace WhileLang

variable {ν : Type}

namespace Term

/-- The number of terms in a term, itself included. -/
def size : Term ν → Nat
  | number _ | boolean _ | doNothing | var _ => 1
  | binary _ left right => left.size + right.size + 1
  | assign _ expression => expression.size + 1
  | ifElse condition consequence alternative =>
      condition.size + consequence.size + alternative.size + 1
  | sequence first second => first.size + second.size + 1
  | whileLoop condition body => condition.size + body.size + 1

/-- The number of loops in a term. -/
def loops : Term ν → Nat
  | number _ | boolean _ | doNothing | var _ => 0
  | binary _ left right => left.loops + right.loops
  | assign _ expression => expression.loops
  | ifElse condition consequence alternative =>
      condition.loops + consequence.loops + alternative.loops
  | sequence first second => first.loops + second.loops
  | whileLoop condition body => condition.loops + body.loops + 1

/-- A bound for the size of a term and of all that it becomes. -/
def peak : Term ν → Nat
  | number _ | boolean _ | doNothing | var _ => 1
  | binary _ left right => max (left.peak + right.size + 1) (right.peak + 2)
  | assign _ expression => expression.peak + 1
  | ifElse condition consequence alternative =>
      max (condition.peak + consequence.size + alternative.size + 1)
        (max consequence.peak alternative.peak)
  | sequence first second => max (first.peak + second.size + 1) second.peak
  | whileLoop condition body =>
      -- While its first copies are run, the loop itself stands behind them.
      max (condition.peak + body.size + 3) (body.peak + 1) + (condition.size + body.size + 1)

theorem size_pos (t : Term ν) : 0 < t.size := by
  cases t <;> exact Nat.succ_pos _

theorem size_le_peak (t : Term ν) : t.size ≤ t.peak := by
  induction t with
  | number | boolean | doNothing | var => exact Nat.le_refl 1
  | binary | assign | ifElse | sequence | whileLoop =>
      simp only [size, peak]
      omega

theorem peak_of_settled {t : Term ν} (h : t.isReducible = false) : t.peak = 1 := by
  cases t with
  | number | boolean | doNothing => rfl
  | _ => cases h

end Term

/-- A part that cannot grow larger cannot make the whole larger. -/
theorem Frame.peak_fill_le (f : Frame ν) {t t' : Term ν} (h : t'.peak ≤ t.peak) :
    (f.fill t').peak ≤ (f.fill t).peak := by
  cases f with
  | leftOperand | assigned | condition | first =>
      simp only [fill, Term.peak]
      omega
  | rightOperand op left settled =>
      -- The left operand counts next to the size of the right one, which may have grown.
      have hsize := t'.size_le_peak
      have hleft := Term.peak_of_settled settled
      simp only [fill, Term.peak]
      omega

namespace Term

variable [Arithmetic ν] {t : Term ν} {env : Environment ν} {s : State ν}

theorem Contracts.peak_le (h : t.Contracts env s) : s.statement.peak ≤ t.peak := by
  cases h with
  | var | binary =>
      rw [peak_of_settled (isReducible_ofValue _)]
      exact Nat.le_trans (size_pos _) (size_le_peak _)
  | assign => exact Nat.le_trans (size_pos _) (size_le_peak _)
  | ifTrue | ifFalse | sequence | whileLoop =>
      simp only [peak, size]
      omega

theorem peak_reduce_le (h : t.reduce env = .ok s) : s.statement.peak ≤ t.peak :=
  contraction_induction (motive := fun t _ s => s.statement.peak ≤ t.peak)
    (fun _ _ _ hc => hc.peak_le) (fun f _ _ _ ih => f.peak_fill_le ih) h

theorem peak_after_le {n : Nat} (h : State.after n ⟨t, env⟩ = .ok s) :
    s.statement.peak ≤ t.peak :=
  State.after_induction (motive := fun u => u.statement.peak ≤ t.peak) h (Nat.le_refl _)
    fun _ _ hu hnext => Nat.le_trans (peak_reduce_le hnext) hu

/-! ## The peak in terms of size and loops -/

omit [Arithmetic ν] in
/-- If the bound holds of a part, it has room in that of the whole for what stands beside
the part, and for a size of the whole and two for each loop that is not in the part. -/
theorem peak_add_le (whole : Term ν) (beside outside : Nat) {part : Term ν}
    (h : part.peak ≤ part.size + part.loops * (part.size + 2))
    (hsize : part.size + beside ≤ whole.size) (hloops : part.loops + outside ≤ whole.loops) :
    part.peak + beside + outside * (whole.size + 2) ≤
      whole.size + whole.loops * (whole.size + 2) := by
  have hinside : part.loops * (part.size + 2) ≤ part.loops * (whole.size + 2) :=
    Nat.mul_le_mul_left _ (by omega)
  have hall : (part.loops + outside) * (whole.size + 2) ≤ whole.loops * (whole.size + 2) :=
    Nat.mul_le_mul_right _ hloops
  rw [Nat.add_mul] at hall
  omega

omit [Arithmetic ν] in
theorem peak_le (t : Term ν) : t.peak ≤ t.size + t.loops * (t.size + 2) := by
  induction t with
  | number | boolean | doNothing | var => exact Nat.le_add_right 1 _
  | binary op left right ihl ihr =>
      have hpos := left.size_pos
      have hleft := peak_add_le (binary op left right) (right.size + 1) 0 ihl
        (by rw [size]; omega) (by rw [loops]; omega)
      have hright := peak_add_le (binary op left right) 2 0 ihr
        (by rw [size]; omega) (by rw [loops]; omega)
      rw [peak]
      omega
  | assign name expression ih =>
      have he := peak_add_le (assign name expression) 1 0 ih (Nat.le_refl _) (Nat.le_refl _)
      rw [peak]
      omega
  | ifElse condition consequence alternative ihc iht ihe =>
      have hc := peak_add_le (ifElse condition consequence alternative)
        (consequence.size + alternative.size + 1) 0 ihc
        (by rw [size]; omega) (by rw [loops]; omega)
      have ht := peak_add_le (ifElse condition consequence alternative) 0 0 iht
        (by rw [size]; omega) (by rw [loops]; omega)
      have he := peak_add_le (ifElse condition consequence alternative) 0 0 ihe
        (by rw [size]; omega) (by rw [loops]; omega)
      rw [peak]
      omega
  | sequence first second ihf ihs =>
      have hf := peak_add_le (sequence first second) (second.size + 1) 0 ihf
        (by rw [size]; omega) (by rw [loops]; omega)
      have hs := peak_add_le (sequence first second) 0 0 ihs
        (by rw [size]; omega) (by rw [loops]; omega)
      rw [peak]
      omega
  | whileLoop condition body ihc ihb =>
      -- The loop that stands behind its copies is paid for by its own share of the bound.
      have hsize : (whileLoop condition body).size = condition.size + body.size + 1 := rfl
      have hc := peak_add_le (whileLoop condition body) (body.size + 1) 1 ihc
        (by rw [size]; omega) (by rw [loops]; omega)
      have hb := peak_add_le (whileLoop condition body) 1 1 ihb
        (by rw [size]; omega) (by rw [loops]; omega)
      rw [peak]
      omega

/-- Unrolling loops never accumulates. However many steps a run takes, and whether or not
it ever ends, the statement it has come to is no larger than the first one with, for each
loop in that, the size of the first one and two added. -/
theorem unrolling_never_accumulates {t : Term ν} {env : Environment ν} {n : Nat} {s : State ν}
    (h : State.after n ⟨t, env⟩ = .ok s) :
    s.statement.size ≤ t.size + t.loops * (t.size + 2) :=
  calc s.statement.size
    _ ≤ s.statement.peak := size_le_peak s.statement
    _ ≤ t.peak := peak_after_le h
    _ ≤ t.size + t.loops * (t.size + 2) := peak_le t

/-- An endless loop of three terms is eight terms large when it is unrolled, which is the
bound. -/
theorem empty_loop_grows_to_bound :
    let loop : Term Int64 := .whileLoop (.boolean true) .doNothing
    let s : State Int64 := ⟨.ifElse (.boolean true) (.sequence .doNothing loop) .doNothing, .empty⟩
    State.after 10 ⟨loop, .empty⟩ = .ok s ∧ s.statement.size = 8 ∧
      s.statement.size ≤ 3 + 1 * (3 + 2) := by
  intro loop s
  have hafter : State.after 10 ⟨loop, .empty⟩ = .ok s := rfl
  exact ⟨hafter, rfl, unrolling_never_accumulates hafter⟩

end Term

end WhileLang
