import WhileLang.Environment.Lemmas
import WhileLang.Proofs.Redex

/-!
# What a redex becomes

Seven things can come of a redex, two of them of a conditional, and only one of them
changes the environment: an assignment of a value. `Contracts` lists them without
asking anything of the way a step finds its place. A step that succeeds is one of them
inside the frames that led there (`contraction_induction`), so what holds of these and
is kept by frames holds of every step.
-/

namespace WhileLang

variable {ν : Type} [Arithmetic ν]

namespace Term

/-- In this environment, the redex becomes the statement of this state and leaves its
environment. -/
inductive Contracts : Term ν → Environment ν → State ν → Prop where
  | var {name : Name} {env : Environment ν} {v : Value ν} (h : env.get? name = some v) :
      Contracts (var name) env ⟨ofValue v, env⟩
  | binary {op : Operator} {a b v : Value ν} (env : Environment ν) (h : op.apply a b = .ok v) :
      Contracts (binary op (ofValue a) (ofValue b)) env ⟨ofValue v, env⟩
  | assign (name : Name) (v : Value ν) (env : Environment ν) :
      Contracts (assign name (ofValue v)) env ⟨doNothing, env.insert name v⟩
  | ifTrue (consequence alternative : Term ν) (env : Environment ν) :
      Contracts (ifElse (boolean true) consequence alternative) env ⟨consequence, env⟩
  | ifFalse (consequence alternative : Term ν) (env : Environment ν) :
      Contracts (ifElse (boolean false) consequence alternative) env ⟨alternative, env⟩
  | sequence (second : Term ν) (env : Environment ν) :
      Contracts (sequence doNothing second) env ⟨second, env⟩
  | whileLoop (condition body : Term ν) (env : Environment ν) :
      Contracts (whileLoop condition body) env
        ⟨ifElse condition (.sequence body (.whileLoop condition body)) doNothing, env⟩

theorem IsRedex.contracts {t : Term ν} (ht : t.IsRedex) {env : Environment ν} {s : State ν}
    (h : t.reduce env = .ok s) : t.Contracts env s := by
  cases ht with
  | var name =>
      obtain ⟨v, hv, h⟩ := bind_eq_ok_iff.mp h
      cases h
      exact .var (Environment.lookup_eq_ok_iff.mp hv)
  | binary op hl hr =>
      rw [reduce_binary_of_settled op hl hr] at h
      obtain ⟨a, ha, h⟩ := bind_eq_ok_iff.mp h
      obtain ⟨b, hb, h⟩ := bind_eq_ok_iff.mp h
      obtain ⟨v, hv, h⟩ := bind_eq_ok_iff.mp h
      cases h
      rw [operand_eq_ok_iff.mp ha, operand_eq_ok_iff.mp hb]
      exact .binary env hv
  | assign name hs =>
      rw [reduce_assign_of_settled name hs] at h
      obtain ⟨v, hv, h⟩ := bind_eq_ok_iff.mp h
      cases h
      rw [operand_eq_ok_iff.mp hv]
      exact .assign name v env
  | ifElse consequence alternative hs =>
      rw [reduce_ifElse_of_settled consequence alternative hs] at h
      obtain ⟨holds, hh, h⟩ := bind_eq_ok_iff.mp h
      cases h
      rw [eq_boolean_of_truth_eq_ok hh]
      cases holds with
      | true => exact .ifTrue consequence alternative env
      | false => exact .ifFalse consequence alternative env
  | sequence second hs =>
      rw [reduce_sequence_of_settled second hs] at h
      obtain ⟨_, hf, h⟩ := bind_eq_ok_iff.mp h
      cases h
      rw [eq_doNothing_of_finished_eq_ok hf]
      exact .sequence second env
  | whileLoop condition body =>
      cases h
      exact .whileLoop condition body env

/-- A step that succeeds contracts its redex and leaves every frame around it. -/
@[elab_as_elim]
theorem contraction_induction {motive : Term ν → Environment ν → State ν → Prop}
    (contracts : ∀ t env s, t.Contracts env s → motive t env s)
    (fill : ∀ (f : Frame ν) t env s, motive t env s →
      motive (f.fill t) env ⟨f.fill s.statement, s.environment⟩)
    {t : Term ν} {env : Environment ν} {s : State ν} (h : t.reduce env = .ok s) :
    motive t env s := by
  induction t using reduction_induction generalizing s with
  | settled t hs =>
      rw [reduce_of_settled hs] at h
      cases h
  | redex t ht => exact contracts t env s (ht.contracts h)
  | fill f t ht ih =>
      rw [f.reduce_fill ht] at h
      obtain ⟨next, hnext, h⟩ := bind_eq_ok_iff.mp h
      cases h
      exact fill f t env next (ih hnext)

end Term

end WhileLang
