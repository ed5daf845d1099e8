import WhileLang.Exchange.Basic
import WhileLang.Term

/-!
# The JSON forms of terms

Values and terms are choices: a value between a number and a truth value, a term
between its nine shapes. Binary terms share one alternative and name their operator
in a field. The term `do-nothing` carries nothing and is written as its bare name.

A term with parts is an alternative whose payload is a record, so each step into a
term goes two levels down.
-/

namespace WhileLang

variable {ν : Type}

instance : Exchange Operator where
  toJson op := .ofString op.name
  ofJson? levels v := do Operator.ofName? (← v.bare? levels)

/-- The number that a JSON value is, where it is an integer of the number type. -/
def Json.numeric? [Arithmetic ν] (v : Json) : Option ν := do
  Arithmetic.ofInt? (← v.int?)

instance [Arithmetic ν] : Exchange (Value ν) where
  toJson
    | .number n => .tagged "Number" (.ofInt (Arithmetic.toInt n))
    | .boolean b => .tagged "Boolean" (.bool b)
  ofJson?
    | _ + 1, .object [(.unicode tag, payload)] =>
        match tag with
        | "Number" => payload.numeric?.map .number
        | "Boolean" => payload.bool?.map .boolean
        | _ => none
    | _, _ => none

namespace Term

variable [Arithmetic ν]

def toJson : Term ν → Json
  | number n => .tagged "Number" (.ofInt (Arithmetic.toInt n))
  | boolean b => .tagged "Boolean" (.bool b)
  | var name => .tagged "Variable" (.ofString name)
  | binary op left right =>
      .tagged "Binary" (.ofFields
        [("op", Exchange.toJson op), ("left", left.toJson), ("right", right.toJson)])
  | assign name expression =>
      .tagged "Assign" (.ofFields
        [("name", .ofString name), ("expression", expression.toJson)])
  | doNothing => .ofString "DoNothing"
  | ifElse condition consequence alternative =>
      .tagged "If" (.ofFields
        [("condition", condition.toJson), ("consequence", consequence.toJson),
          ("alternative", alternative.toJson)])
  | sequence first second =>
      .tagged "Sequence" (.ofFields [("first", first.toJson), ("second", second.toJson)])
  | whileLoop condition body =>
      .tagged "While" (.ofFields [("condition", condition.toJson), ("body", body.toJson)])

/-- The term that an alternative without parts stands for. -/
def ofLeaf? (tag : String) (payload : Json) : Option (Term ν) :=
  match tag, payload with
  | "Number", payload => payload.numeric?.map number
  | "Boolean", payload => payload.bool?.map boolean
  | "Variable", payload => payload.text?.map var
  | "DoNothing", .null => some doNothing
  | _, _ => none

/-- The term that a JSON value is a form of. With one level left only a term
without parts can be entered. -/
def ofJson? : Nat → Json → Option (Term ν)
  | _, .string (.unicode tag) => if tag = "DoNothing" then some doNothing else none
  | 1, .object [(.unicode tag, payload)] => ofLeaf? tag payload
  | levels + 2, .object [(.unicode tag, payload)] =>
      match tag with
      | "Binary" => do
          let [op, left, right] ← payload.required? ["op", "left", "right"] | none
          return binary (← Exchange.ofJson? levels op) (← ofJson? levels left)
            (← ofJson? levels right)
      | "Assign" => do
          let [name, expression] ← payload.required? ["name", "expression"] | none
          return assign (← name.text?) (← ofJson? levels expression)
      | "If" => do
          let [condition, consequence, alternative] ←
            payload.required? ["condition", "consequence", "alternative"] | none
          return ifElse (← ofJson? levels condition) (← ofJson? levels consequence)
            (← ofJson? levels alternative)
      | "Sequence" => do
          let [first, second] ← payload.required? ["first", "second"] | none
          return sequence (← ofJson? levels first) (← ofJson? levels second)
      | "While" => do
          let [condition, body] ← payload.required? ["condition", "body"] | none
          return whileLoop (← ofJson? levels condition) (← ofJson? levels body)
      | _ => ofLeaf? tag payload
  | _, _ => none

instance : Exchange (Term ν) := ⟨toJson, ofJson?⟩

end Term

end WhileLang
