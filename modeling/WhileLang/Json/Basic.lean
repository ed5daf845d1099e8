import WhileLang.Json.Numeral
import WhileLang.Json.Text

/-!
# JSON values

A JSON text read as a tree. Nothing is thrown away that a reader may have to look
at: the members of an object keep their order and may repeat a name, and a number
keeps what the literal tells about it.
-/

namespace WhileLang

inductive Json where
  | null
  | bool (b : Bool)
  | number (n : Json.Numeral)
  | string (t : Json.Text)
  | array (elements : List Json)
  | object (members : List (Json.Text × Json))

instance : Inhabited Json := ⟨.null⟩

namespace Json

def ofString (s : String) : Json :=
  .string (.unicode s)

def ofInt (i : Int) : Json :=
  .number (.integer i)

def int? : Json → Option Int
  | number (.integer i) => some i
  | _ => none

def text? : Json → Option String
  | string (.unicode s) => some s
  | _ => none

def bool? : Json → Option Bool
  | bool b => some b
  | _ => none

end Json

end WhileLang
