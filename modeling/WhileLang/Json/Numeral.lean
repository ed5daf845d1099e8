/-!
# Numbers in JSON

A number literal is an integer when it is written as one: digits, and a minus sign
in front if it is negative. A literal with a fraction or an exponent is not an
integer even where its value is one, and neither is `-0`, whose sign an integer
cannot carry. Those are kept as they are written.
-/

namespace WhileLang.Json

/-- What a number literal stands for. -/
inductive Numeral where
  | integer (i : Int)
  /-- A literal with a fraction, an exponent, or the sign of a negative zero. -/
  | real (literal : String)
deriving DecidableEq

namespace Numeral

/-- The characters that number literals are made of. -/
def isPart (c : Char) : Bool :=
  c.isDigit || c = '-' || c = '+' || c = '.' || c = 'e' || c = 'E'

/-- Whether what follows a point or an exponent's sign is digits, and some. -/
def isDigits (cs : List Char) : Bool :=
  !cs.isEmpty && cs.all Char.isDigit

/-- Whether the digits before the point are a whole number without leading zeros. -/
def isWhole (cs : List Char) : Bool :=
  cs = ['0'] || (isDigits cs && cs.head? != some '0')

/-- Whether the characters are nothing, or an exponent. -/
def isExponent : List Char → Bool
  | [] => true
  | e :: '+' :: cs => (e = 'e' || e = 'E') && isDigits cs
  | e :: '-' :: cs => (e = 'e' || e = 'E') && isDigits cs
  | e :: cs => (e = 'e' || e = 'E') && isDigits cs

/-- Whether what follows the whole part of a literal is a fraction, an exponent, or
a fraction and an exponent. -/
def isTail : List Char → Bool
  | '.' :: cs =>
      isDigits (cs.takeWhile Char.isDigit) && isExponent (cs.dropWhile Char.isDigit)
  | cs => isExponent cs

/-- The number that an unsigned literal stands for, given the sign before it. -/
def ofUnsigned? (negative : Bool) (cs : List Char) : Option Numeral :=
  let whole := cs.takeWhile Char.isDigit
  let tail := cs.dropWhile Char.isDigit
  let magnitude := Nat.ofDigitChars 10 whole 0
  if isWhole whole && isTail tail then
    if tail.isEmpty && !(negative && magnitude == 0) then
      some (integer (if negative then -(magnitude : Int) else magnitude))
    else
      some (real (String.ofList (if negative then '-' :: cs else cs)))
  else
    none

def ofLiteral? : List Char → Option Numeral
  | '-' :: cs => ofUnsigned? true cs
  | cs => ofUnsigned? false cs

def literal : Numeral → String
  | integer i => toString i
  | real text => text

end Numeral

end WhileLang.Json
