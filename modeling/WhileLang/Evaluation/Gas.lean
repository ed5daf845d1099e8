import WhileLang.Error

/-!
# Gas

Evaluation is charged one unit of gas for every term it visits. The meter counts
what was charged and never counts back, not when an evaluation fails and not when
a new one starts; so one meter can be carried through many evaluations. A limit,
if there is one, is checked after the charge: the unit that breaks the limit has
been counted.
-/

namespace WhileLang

structure Meter where
  /-- What has been charged so far. -/
  gas : Nat
  /-- The most that may be charged. -/
  gasLimit : Option Nat
deriving DecidableEq

namespace Meter

/-- A meter at zero that never runs out. -/
def unbounded : Meter := ⟨0, none⟩

/-- A meter at zero that allows so many units. -/
def withLimit (limit : Nat) : Meter := ⟨0, some limit⟩

instance : Inhabited Meter := ⟨unbounded⟩

def charge (m : Meter) : Meter :=
  { m with gas := m.gas + 1 }

/-- Whether more was charged than is allowed. -/
def isExhausted (m : Meter) : Bool :=
  match m.gasLimit with
  | some limit => decide (limit < m.gas)
  | none => false

end Meter

/-- A computation that is charged for. It answers with a result or an error and
leaves the meter where it got to in either case; or it does not answer, when the
rounds that its loops were allowed are spent. -/
abbrev Metered (ν α : Type) : Type :=
  ExceptT (EvalError ν) (StateT Meter Option) α

namespace Metered

variable {ν α β : Type}

/-- The answer of a computation on a meter, and the meter afterwards. -/
def on (x : Metered ν α) (m : Meter) : Option (Except (EvalError ν) α × Meter) :=
  (ExceptT.run x).run m

/-- Charges one unit, and fails if that was one too many. -/
def tick : Metered ν Unit :=
  ExceptT.mk fun m =>
    some (if m.charge.isExhausted then .error .gasExhausted else .ok (), m.charge)

def unanswered : Metered ν α :=
  ExceptT.mk fun _ => none

@[simp]
theorem on_pure (a : α) (m : Meter) : (pure a : Metered ν α).on m = some (.ok a, m) := rfl

@[simp]
theorem on_liftM (x : Except (EvalError ν) α) (m : Meter) :
    (liftM x : Metered ν α).on m = some (x, m) := rfl

@[simp]
theorem on_tick (m : Meter) : (tick : Metered ν Unit).on m =
    some (if m.charge.isExhausted then .error .gasExhausted else .ok (), m.charge) := rfl

@[simp]
theorem on_unanswered (m : Meter) : (unanswered : Metered ν α).on m = none := rfl

/-- The second of two computations runs if the first succeeds, on the meter that
the first left. -/
theorem on_bind (x : Metered ν α) (f : α → Metered ν β) (m : Meter) :
    (x >>= f).on m =
      match x.on m with
      | none => none
      | some (.error e, m') => some (.error e, m')
      | some (.ok a, m') => (f a).on m' := by
  simp only [on, ExceptT.run_bind, StateT.run_bind]
  cases (ExceptT.run x).run m with
  | none => rfl
  | some answer => obtain ⟨_ | _, m'⟩ := answer <;> rfl

end Metered

end WhileLang
