import WhileLang.Proofs.Agreement

/-!
# Equivalent parts may be exchanged

Two terms are equivalent if from every environment they end alike: in the same state,
with the same error, or never. What they do on the way, and how long they take, is left
out of it. The meaning of a construct is put together from the meanings of its parts,
each run in whatever environment the part before it left, so it cannot tell equivalent
parts apart; and this goes on outwards through any number of constructs.

For all constructs but one this is read off the equation for the construct. A loop
comes back in its own equation, and there the argument is by a bound on the price: the
next round of the one loop costs less than the loop, so its end is known to be an end of
the other. Therefore the lemmas say of one direction only that the ends below a price
are covered, for a price that is the same in all of them.
-/

namespace WhileLang

variable {ν : Type} [Arithmetic ν]

/-- Evaluation, if nothing limits it, ends in the same way from every environment. -/
def Term.Equivalent (a b : Term ν) : Prop :=
  ∀ (env : Environment ν) answer, (∃ rounds, a.normalForm? rounds env = some answer) ↔
    ∃ rounds, b.normalForm? rounds env = some answer

/-- A term with a hole in the place of one of its parts. -/
inductive Context (ν : Type) where
  | hole
  | leftOperand (op : Operator) (inner : Context ν) (right : Term ν)
  | rightOperand (op : Operator) (left : Term ν) (inner : Context ν)
  | assigned (name : Name) (inner : Context ν)
  | ifCondition (inner : Context ν) (consequence alternative : Term ν)
  | ifConsequence (condition : Term ν) (inner : Context ν) (alternative : Term ν)
  | ifAlternative (condition consequence : Term ν) (inner : Context ν)
  | sequenceFirst (inner : Context ν) (second : Term ν)
  | sequenceSecond (first : Term ν) (inner : Context ν)
  | loopCondition (inner : Context ν) (body : Term ν)
  | loopBody (condition : Term ν) (inner : Context ν)

/-- The term with the hole filled. -/
def Context.fill : Context ν → Term ν → Term ν
  | hole, t => t
  | leftOperand op inner right, t => .binary op (inner.fill t) right
  | rightOperand op left inner, t => .binary op left (inner.fill t)
  | assigned name inner, t => .assign name (inner.fill t)
  | ifCondition inner consequence alternative, t => .ifElse (inner.fill t) consequence alternative
  | ifConsequence condition inner alternative, t => .ifElse condition (inner.fill t) alternative
  | ifAlternative condition consequence inner, t => .ifElse condition consequence (inner.fill t)
  | sequenceFirst inner second, t => .sequence (inner.fill t) second
  | sequenceSecond first inner, t => .sequence first (inner.fill t)
  | loopCondition inner body, t => .whileLoop (inner.fill t) body
  | loopBody condition inner, t => .whileLoop condition (inner.fill t)

namespace Term

/-- From every environment, each end that the first has for less than `N` steps is one
of the second. -/
def EndsCovered (N : Nat) (a b : Term ν) : Prop :=
  ∀ env, (a.run env).CoveredBelow N (b.run env)

namespace EndsCovered

variable {N : Nat}

theorem refl (N : Nat) (t : Term ν) : t.EndsCovered N t :=
  fun env => .refl N (t.run env)

theorem mono {M : Nat} {a b : Term ν} (hle : M ≤ N) (h : a.EndsCovered N b) :
    a.EndsCovered M b :=
  fun env _ _ hn hg => h env (Nat.lt_of_lt_of_le hn hle) hg

theorem binary (op : Operator) {left left' right right' : Term ν}
    (hleft : left.EndsCovered N left') (hright : right.EndsCovered N right') :
    (binary op left right).EndsCovered N (binary op left' right') := by
  intro env
  rw [run_binary, run_binary]
  exact (hleft env).bind fun l => (hright l.environment).bind fun r => .refl _ _

theorem assign (name : Name) {expression expression' : Term ν}
    (h : expression.EndsCovered N expression') :
    (assign name expression).EndsCovered N (assign name expression') := by
  intro env
  rw [run_assign, run_assign]
  exact (h env).bind fun s => .refl _ _

theorem ifElse {condition condition' consequence consequence' alternative alternative' : Term ν}
    (hc : condition.EndsCovered N condition') (ht : consequence.EndsCovered N consequence')
    (he : alternative.EndsCovered N alternative') :
    (ifElse condition consequence alternative).EndsCovered N
      (ifElse condition' consequence' alternative') := by
  intro env
  rw [run_ifElse, run_ifElse]
  refine (hc env).bind fun s => .bind (.refl _ _) fun holds => .bind (.refl _ _) fun _ => ?_
  cases holds with
  | true => exact ht s.environment
  | false => exact he s.environment

theorem sequence {first first' second second' : Term ν} (hf : first.EndsCovered N first')
    (hs : second.EndsCovered N second') :
    (sequence first second).EndsCovered N (sequence first' second') := by
  intro env
  rw [run_sequence, run_sequence]
  refine (hf env).bind fun s => .bind (.refl _ _) fun _ => .bind (.refl _ _) fun _ => ?_
  exact hs s.environment

theorem whileLoop {condition condition' body body' : Term ν}
    (hc : condition.EndsCovered N condition') (hb : body.EndsCovered N body') :
    (whileLoop condition body).EndsCovered N (whileLoop condition' body') := by
  induction N with
  | zero => exact fun _ => .zero _ _
  | succ N ih =>
      have hc := hc.mono (Nat.le_succ N)
      have hb := hb.mono (Nat.le_succ N)
      intro env
      rw [run_whileLoop, run_whileLoop condition' body']
      refine .pay_succ_left (.pay_right 1 ((hc env).bind fun s => ?_))
      refine .bind (.refl _ _) fun holds => .bind (.refl _ _) fun _ => .ite ?_ (.refl _ _)
      refine (hb s.environment).bind fun s' => .bind (.refl _ _) fun _ => ?_
      exact .bind (.refl _ _) fun _ => ih hc hb s'.environment

/-- What is covered in the hole is covered outside. -/
theorem fill {a b : Term ν} (h : a.EndsCovered N b) (C : Context ν) :
    (C.fill a).EndsCovered N (C.fill b) := by
  induction C with
  | hole => exact h
  | leftOperand op inner right ih => exact .binary op ih (.refl N right)
  | rightOperand op left inner ih => exact .binary op (.refl N left) ih
  | assigned name inner ih => exact .assign name ih
  | ifCondition inner consequence alternative ih =>
      exact .ifElse ih (.refl N consequence) (.refl N alternative)
  | ifConsequence condition inner alternative ih =>
      exact .ifElse (.refl N condition) ih (.refl N alternative)
  | ifAlternative condition consequence inner ih =>
      exact .ifElse (.refl N condition) (.refl N consequence) ih
  | sequenceFirst inner second ih => exact .sequence ih (.refl N second)
  | sequenceSecond first inner ih => exact .sequence (.refl N first) ih
  | loopCondition inner body ih => exact .whileLoop ih (.refl N body)
  | loopBody condition inner ih => exact .whileLoop (.refl N condition) ih

end EndsCovered

theorem equivalent_iff_halts {a b : Term ν} :
    a.Equivalent b ↔ ∀ env answer, (∃ n, State.Halts ⟨a, env⟩ n answer) ↔
      ∃ n, State.Halts ⟨b, env⟩ n answer := by
  simp only [Equivalent, exists_normalForm?_iff_exists_halts]

/-- Equivalent terms are those that cover each other, whatever the price. -/
theorem equivalent_iff_endsCovered {a b : Term ν} :
    a.Equivalent b ↔ (∀ N, a.EndsCovered N b) ∧ ∀ N, b.EndsCovered N a := by
  rw [equivalent_iff_halts]
  constructor
  · intro h
    refine ⟨fun N env n answer _ hn => ?_, fun N env n answer _ hn => ?_⟩
    · exact (h env answer).mp ⟨n, hn⟩
    · exact (h env answer).mpr ⟨n, hn⟩
  · rintro ⟨hab, hba⟩ env answer
    constructor
    · rintro ⟨n, hn⟩
      exact hab (n + 1) env (Nat.lt_succ_self n) hn
    · rintro ⟨n, hn⟩
      exact hba (n + 1) env (Nat.lt_succ_self n) hn

/-- A step that leaves every environment as it is leads to an equivalent term. -/
theorem equivalent_of_reduce {a b : Term ν} (h : ∀ env, a.reduce env = .ok ⟨b, env⟩) :
    a.Equivalent b := by
  rw [equivalent_iff_halts]
  intro env answer
  have hstep : State.step ⟨a, env⟩ = .ok ⟨b, env⟩ := h env
  constructor
  · rintro ⟨n, hn⟩
    cases n with
    | zero => exact absurd (State.halts_zero.mp hn) (State.not_stops_of_step hstep answer)
    | succ n =>
        obtain ⟨next, hnext, hn⟩ := State.halts_succ.mp hn
        rw [hstep] at hnext
        cases hnext
        exact ⟨n, hn⟩
  · rintro ⟨n, hn⟩
    exact ⟨n + 1, State.halts_succ.mpr ⟨_, hstep, hn⟩⟩

/-- To be equivalent for evaluation is to be so for the machine; and equivalent terms
stay equivalent in every context. -/
theorem equivalent_in_every_context :
    (∀ a b : Term ν, a.Equivalent b ↔ ∀ env format answer,
      (∃ fuel, (Machine.start a env ⟨none, format⟩).run? fuel = some answer) ↔
        ∃ fuel, (Machine.start b env ⟨none, format⟩).run? fuel = some answer) ∧
    ∀ a b : Term ν, a.Equivalent b → ∀ C : Context ν, (C.fill a).Equivalent (C.fill b) := by
  refine ⟨fun a b => ?_, fun a b h C => ?_⟩
  · simp only [exists_run?_iff_exists_halts, equivalent_iff_halts]
    exact ⟨fun h env _ => h env, fun h env => h env .text⟩
  · rw [equivalent_iff_endsCovered] at h ⊢
    exact ⟨fun N => (h.1 N).fill C, fun N => (h.2 N).fill C⟩

/-- A finished part can be dropped from the body of a loop. -/
theorem finished_part_dropped_from_loop :
    (sequence doNothing (assign "x" (number 3)) : Term Int64).Equivalent
        (assign "x" (number 3)) ∧
      (whileLoop (binary .lessThan (var "x") (number 3))
          (sequence doNothing (assign "x" (number 3))) : Term Int64).Equivalent
        (whileLoop (binary .lessThan (var "x") (number 3)) (assign "x" (number 3))) := by
  have hpart : (sequence doNothing (assign "x" (number 3)) : Term Int64).Equivalent
      (assign "x" (number 3)) := equivalent_of_reduce fun env => rfl
  exact ⟨hpart, equivalent_in_every_context.2 _ _ hpart
    (.loopBody (binary .lessThan (var "x") (number 3)) .hole)⟩

end Term

end WhileLang
