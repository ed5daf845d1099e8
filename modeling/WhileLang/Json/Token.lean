import WhileLang.Json.Numeral
import WhileLang.Json.Text

/-!
# The tokens of JSON

A JSON text is a row of tokens with blanks between them, and where the blanks are
does not matter. `Token.next?` takes the first token off a text, as long as it can
be; two numbers or words that touch are never one valid text, so nothing hangs on
where the cut between them is made.
-/

namespace WhileLang.Json

inductive Token where
  | openBrace
  | closeBrace
  | openBracket
  | closeBracket
  | colon
  | comma
  | null
  | bool (b : Bool)
  | number (n : Numeral)
  | string (t : Text)
deriving DecidableEq

namespace Token

/-- Space, tab, line feed and carriage return are all the blanks there are. -/
def isBlank (c : Char) : Bool :=
  c = ' ' || c = '\t' || c = '\n' || c = '\r'

/-- The first token of a text that starts with one, and what follows it. -/
def next? : List Char → Option (Token × List Char)
  | '{' :: cs => some (openBrace, cs)
  | '}' :: cs => some (closeBrace, cs)
  | '[' :: cs => some (openBracket, cs)
  | ']' :: cs => some (closeBracket, cs)
  | ':' :: cs => some (colon, cs)
  | ',' :: cs => some (comma, cs)
  | 'n' :: 'u' :: 'l' :: 'l' :: cs => some (null, cs)
  | 't' :: 'r' :: 'u' :: 'e' :: cs => some (bool true, cs)
  | 'f' :: 'a' :: 'l' :: 's' :: 'e' :: cs => some (bool false, cs)
  | '"' :: cs => (Text.scan? cs).map fun (pieces, rest) => (string (.ofPieces pieces), rest)
  | c :: cs =>
      if c = '-' || c.isDigit then
        (Numeral.ofLiteral? (c :: cs.takeWhile Numeral.isPart)).map fun n =>
          (number n, cs.dropWhile Numeral.isPart)
      else none
  | [] => none

/-- A token takes up some of the characters. -/
theorem length_of_next? {cs rest : List Char} {t : Token} (h : next? cs = some (t, rest)) :
    rest.length < cs.length := by
  unfold next? at h
  split at h
  case h_10 tail =>
    simp only [Option.map_eq_some_iff, Prod.mk.injEq] at h
    obtain ⟨⟨_, tail'⟩, htail, _, rfl⟩ := h
    have : tail'.length < tail.length := Text.length_of_scan? htail
    simp only [List.length_cons]
    omega
  case h_11 c tail _ _ _ _ _ _ _ _ _ _ =>
    split at h
    · simp only [Option.map_eq_some_iff, Prod.mk.injEq] at h
      obtain ⟨_, _, _, rfl⟩ := h
      have := (List.dropWhile_sublist Numeral.isPart (l := tail)).length_le
      simp only [List.length_cons]
      omega
    · exact absurd h (by simp)
  case h_12 => exact absurd h (by simp)
  all_goals
    obtain ⟨-, rfl⟩ := Prod.mk.inj (Option.some.inj h)
    simp only [List.length_cons]
    omega

/-- All tokens of a text, blanks left out; `none` where something is no token. -/
def scan? (cs : List Char) : Option (List Token) :=
  if (cs.dropWhile isBlank).isEmpty then some []
  else
    match _h : next? (cs.dropWhile isBlank) with
    | none => none
    | some (t, rest) => (scan? rest).map (t :: ·)
termination_by cs.length
decreasing_by
  have := length_of_next? _h
  have := (List.dropWhile_sublist isBlank (l := cs)).length_le
  omega

def write : Token → List Char
  | openBrace => ['{']
  | closeBrace => ['}']
  | openBracket => ['[']
  | closeBracket => [']']
  | colon => [':']
  | comma => [',']
  | null => ['n', 'u', 'l', 'l']
  | bool true => ['t', 'r', 'u', 'e']
  | bool false => ['f', 'a', 'l', 's', 'e']
  | number n => n.literal.toList
  | string t => '"' :: t.body

end Token

end WhileLang.Json
