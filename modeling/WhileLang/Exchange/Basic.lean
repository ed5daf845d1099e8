import WhileLang.Json.Reader
import WhileLang.Json.Record
import WhileLang.Json.Writer

/-!
# Exchange

Programs, states and settings are exchanged as JSON texts. A type that can be
exchanged has one JSON form for each of its values and may be read from more: from
fields in another order, from the array form of a record, from a text with blanks
in it.

Reading counts levels. Each array or object that is entered on the way to a part
of the result costs one, and when none is left the part is not read; what is passed
over costs nothing, however deep it is. A text is read with `nestingLimit` levels.
-/

namespace WhileLang

/-- A type whose values are exchanged as JSON. -/
class Exchange (α : Type) where
  /-- The JSON form of a value. -/
  toJson : α → Json
  /-- The value that a JSON value is a form of, entering at most `levels` arrays and
  objects one inside another. -/
  ofJson? (levels : Nat) : Json → Option α

namespace Exchange

variable {α : Type} [Exchange α]

/-- How many levels of arrays and objects a text may have. -/
def nestingLimit : Nat := 127

/-- The compact JSON text of a value. -/
def encode (a : α) : String :=
  (toJson a).write

def decode? (text : String) : Option α := do
  ofJson? nestingLimit (← Json.read? text)

end Exchange

end WhileLang
