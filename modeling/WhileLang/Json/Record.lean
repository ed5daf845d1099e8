import WhileLang.Json.Basic

/-!
# Records and choices in JSON

Two conventions say how structured data are put into JSON. A record has a list of
declared fields; it may be written as an object or as an array. A choice between
alternatives is written as an object whose one name says which; an alternative
that carries nothing may be written as its bare name.

Readers are strict where something would be ambiguous, and only there: a declared
field must not be given twice, an undeclared one is passed over, repeated or not.
-/

namespace WhileLang.Json

/-- What an object's members give for a field: at most one value. -/
def field? (members : List (Text × Json)) (name : String) : Option (Option Json) :=
  match members.filter fun m => m.1 = .unicode name with
  | [] => some none
  | [(_, value)] => some (some value)
  | _ => none

/-- What a record gives for each of its declared fields. The members of an object
may come in any order, and their names have to be text. An array has the fields in
declared order, and none beyond them. -/
def fields? (names : List String) : Json → Option (List (Option Json))
  | array elements =>
      if elements.length ≤ names.length then
        some (elements.map some ++ List.replicate (names.length - elements.length) none)
      else none
  | object members =>
      if members.all fun m => m.1 ≠ .illFormed then names.mapM (field? members) else none
  | _ => none

/-- The declared fields of a record that has to give all of them. -/
def required? (names : List String) (v : Json) : Option (List Json) := do
  (← v.fields? names).mapM id

/-- The record with the given fields, as an object. -/
def ofFields (fields : List (String × Json)) : Json :=
  .object (fields.map fun f => (.unicode f.1, f.2))

/-- The alternative of a given name that carries a payload. -/
def tagged (tag : String) (payload : Json) : Json :=
  ofFields [(tag, payload)]

/-- The name of an alternative that carries nothing. Its bare name has no inside;
the object with that one name is entered only if there is a level left for it. -/
def bare? : Nat → Json → Option String
  | _, string (.unicode tag) => some tag
  | _ + 1, object [(.unicode tag, null)] => some tag
  | _, _ => none

end WhileLang.Json
