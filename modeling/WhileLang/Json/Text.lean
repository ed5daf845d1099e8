/-!
# Text in JSON

A string literal spells its characters one by one, raw or by an escape. The escape
`\uXXXX` does not spell a character but a unit of UTF-16, and a character beyond
U+FFFF takes two of them. A unit that lacks its partner spells nothing at all. Such
a literal is still well formed JSON, so it has a place here, `illFormed`, without
being any text.

Writing escapes only what has to be escaped: the quote, the backslash, and the
control characters below U+0020.
-/

namespace WhileLang.Json

/-- What a string literal stands for. -/
inductive Text where
  | unicode (s : String)
  /-- No text, since half of a surrogate pair stands alone. -/
  | illFormed
deriving DecidableEq

namespace Text

/-- What one character or one escape of a literal contributes. -/
inductive Piece where
  | scalar (c : Char)
  /-- The upper ten bits of a character beyond U+FFFF. -/
  | leading (upper : Nat)
  /-- The lower ten bits of a character beyond U+FFFF. -/
  | trailing (lower : Nat)
deriving DecidableEq

/-- What a unit of UTF-16 contributes. -/
def Piece.ofUnit (unit : Nat) : Piece :=
  if 0xD800 ≤ unit ∧ unit < 0xDC00 then .leading (unit - 0xD800)
  else if 0xDC00 ≤ unit ∧ unit < 0xE000 then .trailing (unit - 0xDC00)
  else .scalar (Char.ofNat unit)

/-- Joins the pieces to characters, if every half has its partner. -/
def characters? : List Piece → Option (List Char)
  | [] => some []
  | .scalar c :: rest => (characters? rest).map (c :: ·)
  | .leading upper :: .trailing lower :: rest =>
      (characters? rest).map (Char.ofNat (0x10000 + upper * 0x400 + lower) :: ·)
  | _ => none

def ofPieces (pieces : List Piece) : Text :=
  match characters? pieces with
  | some cs => .unicode (String.ofList cs)
  | none => .illFormed

def hexValue? (c : Char) : Option Nat :=
  if '0' ≤ c ∧ c ≤ '9' then some (c.toNat - '0'.toNat)
  else if 'a' ≤ c ∧ c ≤ 'f' then some (c.toNat - 'a'.toNat + 10)
  else if 'A' ≤ c ∧ c ≤ 'F' then some (c.toNat - 'A'.toNat + 10)
  else none

def hexUnit? (a b c d : Char) : Option Nat := do
  let a ← hexValue? a
  let b ← hexValue? b
  let c ← hexValue? c
  let d ← hexValue? d
  return ((a * 16 + b) * 16 + c) * 16 + d

/-- The character that a backslash and one more character spell. -/
def shortEscape? : Char → Option Char
  | '"' => some '"'
  | '\\' => some '\\'
  | '/' => some '/'
  | 'b' => some '\x08'
  | 'f' => some '\x0c'
  | 'n' => some '\n'
  | 'r' => some '\r'
  | 't' => some '\t'
  | _ => none

/-- Reads a literal from behind its opening quote up to its closing one: the pieces
it spells, and what follows it. -/
def scan? : List Char → Option (List Piece × List Char)
  | [] => none
  | '"' :: rest => some ([], rest)
  | '\\' :: 'u' :: a :: b :: c :: d :: rest => do
      let unit ← hexUnit? a b c d
      let (pieces, rest) ← scan? rest
      return (Piece.ofUnit unit :: pieces, rest)
  | '\\' :: e :: rest => do
      let c ← shortEscape? e
      let (pieces, rest) ← scan? rest
      return (.scalar c :: pieces, rest)
  | c :: rest =>
      if c < ' ' then none
      else do
        let (pieces, rest) ← scan? rest
        return (.scalar c :: pieces, rest)

/-- A literal takes up some of the characters. -/
theorem length_of_scan? {cs rest : List Char} {pieces : List Piece}
    (h : scan? cs = some (pieces, rest)) : rest.length < cs.length := by
  fun_induction scan? cs generalizing pieces with
  | case1 => exact absurd h (by simp)
  | case2 tail =>
    obtain ⟨-, rfl⟩ := Prod.mk.inj (Option.some.inj h)
    simp
  | case3 a b c d tail ih =>
    simp only [Option.bind_eq_bind, Option.bind_eq_some_iff, Option.pure_def,
      Option.some.injEq, Prod.mk.injEq] at h
    obtain ⟨_, _, ⟨_, tail'⟩, htail, _, rfl⟩ := h
    have : tail'.length < tail.length := ih htail
    simp only [List.length_cons]
    omega
  | case4 e tail _ ih =>
    simp only [Option.bind_eq_bind, Option.bind_eq_some_iff, Option.pure_def,
      Option.some.injEq, Prod.mk.injEq] at h
    obtain ⟨_, _, ⟨_, tail'⟩, htail, _, rfl⟩ := h
    have : tail'.length < tail.length := ih htail
    simp only [List.length_cons]
    omega
  | case5 => exact absurd h (by simp)
  | case6 c tail _ _ _ _ ih =>
    simp only [Option.bind_eq_bind, Option.bind_eq_some_iff, Option.pure_def,
      Option.some.injEq, Prod.mk.injEq] at h
    obtain ⟨⟨_, tail'⟩, htail, _, rfl⟩ := h
    have : tail'.length < tail.length := ih htail
    simp only [List.length_cons]
    omega

/-- The lower-case hexadecimal digit of a value below sixteen. -/
def hexDigit (n : Nat) : Char :=
  Char.ofNat (if n < 10 then '0'.toNat + n else 'a'.toNat + (n - 10))

/-- How a character is written: by its short escape if it is one that has to be
escaped and has one, else as a unit, else raw. -/
def escape (c : Char) : List Char :=
  match c with
  | '"' => ['\\', '"']
  | '\\' => ['\\', '\\']
  | '\x08' => ['\\', 'b']
  | '\t' => ['\\', 't']
  | '\n' => ['\\', 'n']
  | '\x0c' => ['\\', 'f']
  | '\r' => ['\\', 'r']
  | c =>
      if c < ' ' then ['\\', 'u', '0', '0', hexDigit (c.toNat / 16), hexDigit (c.toNat % 16)]
      else [c]

/-- A literal without its opening quote. -/
def body : Text → List Char
  | unicode s => s.toList.flatMap escape ++ ['"']
  | illFormed => ['\\', 'u', 'd', '8', '0', '0', '"']

end Text

end WhileLang.Json
