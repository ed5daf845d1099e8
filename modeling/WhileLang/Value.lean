import WhileLang.Arithmetic
import WhileLang.Operator

/-!
# Values

What a variable can be bound to and an expression can settle to: a number or a
truth value. There is no conversion between the two.
-/

namespace WhileLang

/-- The two kinds of value, as error messages speak of them. -/
inductive Kind where
  | number
  | boolean
deriving DecidableEq, Inhabited

def Kind.word : Kind → String
  | number => "number"
  | boolean => "boolean"

inductive Value (ν : Type) where
  | number (n : ν)
  | boolean (b : Bool)
deriving DecidableEq

namespace Value

variable {ν : Type}

def kind : Value ν → Kind
  | number _ => .number
  | boolean _ => .boolean

/-- A number is written in decimal, with a minus sign if it is negative. -/
def render [Arithmetic ν] : Value ν → String
  | number n => toString (Arithmetic.toInt n)
  | boolean true => "true"
  | boolean false => "false"

end Value

/-- What an operator yields on two integers when no width confines the result. -/
def Operator.exact (op : Operator) (a b : Int) : Value Int :=
  match op with
  | .add => .number (a + b)
  | .multiply => .number (a * b)
  | .lessThan => .boolean (decide (a < b))
  | .greaterThan => .boolean (decide (b < a))

end WhileLang
