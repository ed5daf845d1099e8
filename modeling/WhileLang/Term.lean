import WhileLang.Name
import WhileLang.Value

/-!
# Terms

Expressions and statements share one syntax, because evaluation lets them nest in
any position: a sequence may stand as a condition, an assignment as an operand.
Such a term has a meaning as long as what it settles to fits its place.

Three shapes are *settled* and have no further step: a number, a truth value, and
`do-nothing`, which is what a finished statement leaves behind. All others are
reducible, whatever stands inside them; this is a property of the outermost shape
alone.
-/

namespace WhileLang

/-- An expression or a statement. -/
inductive Term (ν : Type) where
  | number (n : ν)
  | boolean (b : Bool)
  | var (name : Name)
  | binary (op : Operator) (left right : Term ν)
  | assign (name : Name) (expression : Term ν)
  | doNothing
  | ifElse (condition consequence alternative : Term ν)
  | sequence (first second : Term ν)
  | whileLoop (condition body : Term ν)
deriving DecidableEq

namespace Term

variable {ν : Type}

def ofValue : Value ν → Term ν
  | .number n => number n
  | .boolean b => boolean b

/-- The value a settled term holds; `do-nothing` holds none. -/
def value? : Term ν → Option (Value ν)
  | number n => some (.number n)
  | boolean b => some (.boolean b)
  | _ => none

/-- Whether a further step is to be taken. -/
def isReducible : Term ν → Bool
  | number _ | boolean _ | doNothing => false
  | var _ | binary .. | assign .. | ifElse .. | sequence .. | whileLoop .. => true

/-- Whether the term is run for its effect rather than for a value. -/
def isStatement : Term ν → Bool
  | assign .. | doNothing | ifElse .. | sequence .. | whileLoop .. => true
  | number _ | boolean _ | var _ | binary .. => false

/-- The name of the term's shape; a binary term goes by its operator. -/
def shape : Term ν → String
  | number _ => "Number"
  | boolean _ => "Boolean"
  | var _ => "Variable"
  | binary op .. => op.name
  | assign .. => "Assign"
  | doNothing => "DoNothing"
  | ifElse .. => "If"
  | sequence .. => "Sequence"
  | whileLoop .. => "While"

/-- The infix form for human readers. No parentheses are ever written, so it shows
a term and does not determine it. -/
def render [Arithmetic ν] : Term ν → String
  | number n => (Value.number n).render
  | boolean b => (Value.boolean b : Value ν).render
  | var name => name
  | binary op left right => left.render ++ " " ++ op.symbol ++ " " ++ right.render
  | assign name expression => name ++ " = " ++ expression.render
  | doNothing => "do-nothing"
  | ifElse condition consequence alternative =>
      "if (" ++ condition.render ++ ") \x7b " ++ consequence.render ++
        " \x7d else \x7b " ++ alternative.render ++ " \x7d"
  | sequence first second => first.render ++ "; " ++ second.render
  | whileLoop condition body =>
      "while (" ++ condition.render ++ ") \x7b " ++ body.render ++ " \x7d"

/-- The infix form set between double angle brackets. -/
def inspect [Arithmetic ν] (t : Term ν) : String :=
  "<<" ++ t.render ++ ">>"

@[simp]
theorem value?_ofValue (v : Value ν) : (ofValue v).value? = some v := by
  cases v <;> rfl

/-- A term holds a value exactly when it is that value's settled term. -/
theorem value?_eq_some_iff {t : Term ν} {v : Value ν} :
    t.value? = some v ↔ t = ofValue v := by
  constructor
  · intro h
    cases t <;> simp only [value?, Option.some.injEq, reduceCtorEq] at h <;> subst h <;> rfl
  · rintro rfl
    exact value?_ofValue v

@[simp]
theorem isReducible_ofValue (v : Value ν) : (ofValue v).isReducible = false := by
  cases v <;> rfl

@[simp]
theorem isReducible_doNothing : (doNothing : Term ν).isReducible = false := rfl

/-- A settled term is a value or `do-nothing`. -/
theorem eq_doNothing_or_ofValue_of_settled {t : Term ν} (h : t.isReducible = false) :
    t = doNothing ∨ ∃ v, t = ofValue v := by
  cases t with
  | number n => exact .inr ⟨.number n, rfl⟩
  | boolean b => exact .inr ⟨.boolean b, rfl⟩
  | doNothing => exact .inl rfl
  | _ => simp [isReducible] at h

end Term

end WhileLang
