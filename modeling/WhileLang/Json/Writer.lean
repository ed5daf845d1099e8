import WhileLang.Json.Basic
import WhileLang.Json.Token

/-!
# Writing JSON

A value is written as its tokens without any blanks between them.
-/

namespace WhileLang.Json

mutual

def tokens : Json → List Token
  | null => [.null]
  | bool b => [.bool b]
  | number n => [.number n]
  | string t => [.string t]
  | array [] => [.openBracket, .closeBracket]
  | array (v :: vs) => .openBracket :: (v.tokens ++ moreElements vs)
  | object [] => [.openBrace, .closeBrace]
  | object ((name, v) :: ms) =>
      .openBrace :: .string name :: .colon :: (v.tokens ++ moreMembers ms)

/-- The tokens of an array from behind one of its elements. -/
def moreElements : List Json → List Token
  | [] => [.closeBracket]
  | v :: vs => .comma :: (v.tokens ++ moreElements vs)

/-- The tokens of an object from behind one of its members. -/
def moreMembers : List (Text × Json) → List Token
  | [] => [.closeBrace]
  | (name, v) :: ms => .comma :: .string name :: .colon :: (v.tokens ++ moreMembers ms)

end

def write (v : Json) : String :=
  String.ofList (v.tokens.flatMap Token.write)

end WhileLang.Json
