import WhileLang.Proofs.Position

/-!
# The place of a step

A step rewrites one place of a term. The way there leads through frames: from a
construct into the part of it that is being run, and on from there for as long as
that part is reducible. What it ends at is the `redex`, a construct all of whose due
parts have settled, or a loop, which is never entered.

There are six kinds of redex, and that is all a step can do by itself: everything
else it does is to leave a frame around the place as it was. So what is said of every
step is shown for the six kinds and for a frame, and `reduction_induction` is that
induction.
-/

namespace WhileLang

variable {ν : Type}

namespace Term

/-- The part of a term that its next step rewrites. -/
def redex : Term ν → Term ν
  | binary op left right =>
      if left.isReducible then left.redex
      else if right.isReducible then right.redex
      else binary op left right
  | assign name expression =>
      if expression.isReducible then expression.redex else assign name expression
  | ifElse condition consequence alternative =>
      if condition.isReducible then condition.redex
      else ifElse condition consequence alternative
  | sequence first second => if first.isReducible then first.redex else sequence first second
  | t => t

/-- A term whose next step rewrites the outermost construct. -/
inductive IsRedex : Term ν → Prop where
  | var (name : Name) : IsRedex (var name)
  | binary (op : Operator) {left right : Term ν} (hleft : left.isReducible = false)
      (hright : right.isReducible = false) : IsRedex (binary op left right)
  | assign (name : Name) {expression : Term ν} (h : expression.isReducible = false) :
      IsRedex (assign name expression)
  | ifElse {condition : Term ν} (consequence alternative : Term ν)
      (h : condition.isReducible = false) : IsRedex (ifElse condition consequence alternative)
  | sequence {first : Term ν} (second : Term ν) (h : first.isReducible = false) :
      IsRedex (sequence first second)
  | whileLoop (condition body : Term ν) : IsRedex (whileLoop condition body)

theorem IsRedex.isReducible {t : Term ν} (h : t.IsRedex) : t.isReducible = true := by
  cases h <;> rfl

theorem IsRedex.redex_eq {t : Term ν} (h : t.IsRedex) : t.redex = t := by
  cases h with
  | var name => rfl
  | binary op hleft hright => simp [redex, hleft, hright]
  | assign name h => simp [redex, h]
  | ifElse consequence alternative h => simp [redex, h]
  | sequence second h => simp [redex, h]
  | whileLoop condition body => rfl

/-- Every term is settled, or a redex, or a frame around a reducible term. -/
@[elab_as_elim]
theorem reduction_induction {motive : Term ν → Prop}
    (settled : ∀ t, t.isReducible = false → motive t)
    (redex : ∀ t, t.IsRedex → motive t)
    (fill : ∀ (f : Frame ν) (t : Term ν), t.isReducible = true → motive t → motive (f.fill t))
    (t : Term ν) : motive t := by
  induction t with
  | number | boolean | doNothing => exact settled _ rfl
  | var name => exact redex _ (.var name)
  | binary op left right ihl ihr =>
      cases hl : left.isReducible with
      | true => exact fill (.leftOperand op right) left hl ihl
      | false =>
          cases hr : right.isReducible with
          | true => exact fill (.rightOperand op left hl) right hr ihr
          | false => exact redex _ (.binary op hl hr)
  | assign name expression ih =>
      cases h : expression.isReducible with
      | true => exact fill (.assigned name) expression h ih
      | false => exact redex _ (.assign name h)
  | ifElse condition consequence alternative ihc _ _ =>
      cases h : condition.isReducible with
      | true => exact fill (.condition consequence alternative) condition h ihc
      | false => exact redex _ (.ifElse consequence alternative h)
  | sequence first second ihf _ =>
      cases h : first.isReducible with
      | true => exact fill (.first second) first h ihf
      | false => exact redex _ (.sequence second h)
  | whileLoop condition body _ _ => exact redex _ (.whileLoop condition body)

end Term

theorem Frame.redex_fill (f : Frame ν) {t : Term ν} (h : t.isReducible = true) :
    (f.fill t).redex = t.redex := by
  cases f with
  | leftOperand op right => simp [fill, Term.redex, h]
  | rightOperand op left settled => simp [fill, Term.redex, h, settled]
  | assigned name => simp [fill, Term.redex, h]
  | condition consequence alternative => simp [fill, Term.redex, h]
  | first second => simp [fill, Term.redex, h]

theorem Term.isRedex_redex {t : Term ν} (h : t.isReducible = true) : t.redex.IsRedex := by
  induction t using reduction_induction with
  | settled t hs =>
      rw [hs] at h
      cases h
  | redex t ht => rwa [ht.redex_eq]
  | fill f t ht ih => rw [f.redex_fill ht]; exact ih ht

variable [Arithmetic ν]

theorem bind_eq_error_iff {ε α β : Type} {x : Except ε α} {f : α → Except ε β} {e : ε} :
    x >>= f = .error e ↔ x = .error e ∨ ∃ a, x = .ok a ∧ f a = .error e := by
  cases x <;> simp [bind, Except.bind]

theorem bind_eq_ok_iff {ε α β : Type} {x : Except ε α} {f : α → Except ε β} {b : β} :
    x >>= f = .ok b ↔ ∃ a, x = .ok a ∧ f a = .ok b := by
  cases x <;> simp [bind, Except.bind]

namespace Term

/-! ## The step of each redex -/

theorem reduce_binary_of_settled (op : Operator) {left right : Term ν}
    (hleft : left.isReducible = false) (hright : right.isReducible = false)
    (env : Environment ν) :
    (binary op left right).reduce env =
      (do
        let v ← op.apply (← left.operand) (← right.operand)
        return ⟨ofValue v, env⟩) := by
  rw [reduce, if_neg (by simp [hleft]), if_neg (by simp [hright])]

theorem reduce_assign_of_settled (name : Name) {expression : Term ν}
    (h : expression.isReducible = false) (env : Environment ν) :
    (assign name expression).reduce env =
      (do
        let v ← expression.operand
        return ⟨doNothing, env.insert name v⟩) := by
  rw [reduce, if_neg (by simp [h])]

theorem reduce_ifElse_of_settled {condition : Term ν} (consequence alternative : Term ν)
    (h : condition.isReducible = false) (env : Environment ν) :
    (ifElse condition consequence alternative).reduce env =
      (do
        let holds ← condition.truth
        return ⟨if holds then consequence else alternative, env⟩) := by
  rw [reduce, if_neg (by simp [h])]

theorem reduce_sequence_of_settled {first : Term ν} (second : Term ν)
    (h : first.isReducible = false) (env : Environment ν) :
    (sequence first second).reduce env =
      (do
        first.finished
        return ⟨second, env⟩) := by
  rw [reduce, if_neg (by simp [h])]

end Term

/-- A step fails if its redex does, with the error that the redex has by itself. -/
theorem Term.reduce_eq_error_iff {t : Term ν} (h : t.isReducible = true)
    {env : Environment ν} {e : EvalError ν} :
    t.reduce env = .error e ↔ t.redex.reduce env = .error e := by
  induction t using reduction_induction with
  | settled t hs =>
      rw [hs] at h
      cases h
  | redex t ht => rw [ht.redex_eq]
  | fill f t ht ih =>
      rw [f.redex_fill ht, f.reduce_fill ht, ← ih ht]
      cases t.reduce env with
      | error e' => exact Iff.rfl
      | ok next => simp [bind, Except.bind, pure, Except.pure]

end WhileLang
