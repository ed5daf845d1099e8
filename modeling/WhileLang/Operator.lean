/-!
# The binary operators

Two of them compute a number, two compare. Which is which decides what an
application can fail with: only arithmetic can overflow.
-/

namespace WhileLang

inductive Operator where
  | add
  | multiply
  | lessThan
  | greaterThan
deriving DecidableEq, Inhabited

namespace Operator

/-- The sign written between the operands. -/
def symbol : Operator → String
  | add => "+"
  | multiply => "*"
  | lessThan => "<"
  | greaterThan => ">"

/-- The operator's name: the word it is exchanged under. -/
def name : Operator → String
  | add => "Add"
  | multiply => "Multiply"
  | lessThan => "LessThan"
  | greaterThan => "GreaterThan"

/-- The operators, in the order of their names' table. -/
def all : List Operator := [add, multiply, lessThan, greaterThan]

def ofName? (s : String) : Option Operator :=
  all.find? (·.name = s)

/-- A comparison yields a truth value, the other operators a number. -/
def isComparison : Operator → Bool
  | lessThan | greaterThan => true
  | add | multiply => false

@[simp]
theorem ofName?_name (op : Operator) : ofName? op.name = some op := by
  cases op <;> rfl

theorem ofName?_eq_some_iff {s : String} {op : Operator} :
    ofName? s = some op ↔ s = op.name := by
  constructor
  · intro h
    have := List.find?_some h
    simpa [eq_comm] using this
  · rintro rfl
    exact ofName?_name op

end Operator

end WhileLang
