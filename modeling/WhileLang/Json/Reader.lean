import WhileLang.Json.Basic
import WhileLang.Json.Token

/-!
# Reading JSON

Tokens are read one at a time by a machine whose state is what is still open: the
arrays and objects that were begun, each with what it already holds. There is no
bound on how deep they nest, and since every token is looked at once, reading is a
fold.

Most states say what may come next. After an opening bracket or brace the closing
one may follow at once, after a comma it may not, which is why these are different
states.
-/

namespace WhileLang.Json

/-- A container that was begun and not yet closed, with what it holds so far, the
latest first. -/
inductive Frame where
  | array (elements : List Json)
  /-- The object is about to get a member of this name. -/
  | object (members : List (Text × Json)) (name : Text)

/-- What a reader has come to, with the containers around it, the innermost
first. -/
inductive Reader where
  /-- A value has to come. -/
  | value (outer : List Frame)
  /-- After an opening bracket: a value or the closing bracket. -/
  | firstElement (outer : List Frame)
  /-- After an element: a comma or the closing bracket. -/
  | afterElement (elements : List Json) (outer : List Frame)
  /-- After an opening brace: a name or the closing brace. -/
  | firstMember (outer : List Frame)
  /-- After a comma in an object: a name. -/
  | nextMember (members : List (Text × Json)) (outer : List Frame)
  /-- After a name: a colon. -/
  | afterName (members : List (Text × Json)) (name : Text) (outer : List Frame)
  /-- After a member: a comma or the closing brace. -/
  | afterMember (members : List (Text × Json)) (outer : List Frame)
  /-- The value is complete and nothing more may come. -/
  | done (v : Json)

namespace Reader

/-- A value is complete: it goes into the innermost open container. -/
def complete (v : Json) : List Frame → Reader
  | [] => done v
  | .array elements :: rest => afterElement (v :: elements) rest
  | .object members name :: rest => afterMember ((name, v) :: members) rest

/-- A value begins with this token. -/
def begin? (outer : List Frame) : Token → Option Reader
  | .null => some (complete .null outer)
  | .bool b => some (complete (.bool b) outer)
  | .number n => some (complete (.number n) outer)
  | .string t => some (complete (.string t) outer)
  | .openBracket => some (firstElement outer)
  | .openBrace => some (firstMember outer)
  | _ => none

/-- Takes one more token, if it may come here. -/
def step? : Reader → Token → Option Reader
  | value outer, t => begin? outer t
  | firstElement outer, .closeBracket => some (complete (.array []) outer)
  | firstElement outer, t => begin? (.array [] :: outer) t
  | afterElement elements outer, .comma => some (value (.array elements :: outer))
  | afterElement elements outer, .closeBracket =>
      some (complete (.array elements.reverse) outer)
  | firstMember outer, .closeBrace => some (complete (.object []) outer)
  | firstMember outer, .string name => some (afterName [] name outer)
  | nextMember members outer, .string name => some (afterName members name outer)
  | afterName members name outer, .colon => some (value (.object members name :: outer))
  | afterMember members outer, .comma => some (nextMember members outer)
  | afterMember members outer, .closeBrace =>
      some (complete (.object members.reverse) outer)
  | _, _ => none

def result? : Reader → Option Json
  | done v => some v
  | _ => none

end Reader

def ofTokens? (ts : List Token) : Option Json := do
  (← ts.foldlM Reader.step? (.value [])).result?

def read? (text : String) : Option Json := do
  ofTokens? (← Token.scan? text.toList)

end WhileLang.Json
