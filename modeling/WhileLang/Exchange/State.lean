import WhileLang.Exchange.Term
import WhileLang.State

/-!
# The JSON forms of environments and states

An environment is an object with one member for each binding, written in ascending
order of names. Reading takes the members in the order of the text, so of two
bindings of one name the later holds. A state is a record.
-/

namespace WhileLang

variable {ν : Type} [Arithmetic ν]

/-- The binding that a member of an object is a form of. -/
def Environment.bindingOfMember? (levels : Nat) (m : Json.Text × Json) :
    Option (Name × Value ν) :=
  match m with
  | (.unicode name, payload) => (Exchange.ofJson? levels payload).map (name, ·)
  | (.illFormed, _) => none

instance : Exchange (Environment ν) where
  toJson env := .ofFields (env.toList.map fun b => (b.1, Exchange.toJson b.2))
  ofJson?
    | levels + 1, .object members =>
        (members.mapM (Environment.bindingOfMember? levels)).map Environment.ofList
    | _, _ => none

instance : Exchange (State ν) where
  toJson s := .ofFields
    [("statement", Exchange.toJson s.statement), ("environment", Exchange.toJson s.environment)]
  ofJson?
    | levels + 1, v => do
        let [statement, environment] ← v.required? ["statement", "environment"] | none
        return ⟨← Exchange.ofJson? levels statement, ← Exchange.ofJson? levels environment⟩
    | 0, _ => none

end WhileLang
