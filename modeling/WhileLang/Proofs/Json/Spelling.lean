import Mathlib.Data.List.Chain
import WhileLang.Proofs.Json.Numerals
import WhileLang.Proofs.Json.Parsing
import WhileLang.Proofs.Json.Strings

/-!
# The texts of a value

A value can be written as any text that has its tokens in their order, each in one of
its spellings, with any blanks around them. Reading finds the tokens again, for two
reasons: a token other than a number ends by itself, and a number in the tokens of a
value is never followed by another, so what comes next cannot prolong it
(`apart_tokens`).
-/

namespace WhileLang.Json

namespace Token

/-- The token can be written as these characters. -/
inductive Spelled : Token → List Char → Prop where
  | openBrace : Spelled openBrace ['{']
  | closeBrace : Spelled closeBrace ['}']
  | openBracket : Spelled openBracket ['[']
  | closeBracket : Spelled closeBracket [']']
  | colon : Spelled colon [':']
  | comma : Spelled comma [',']
  | null : Spelled null ['n', 'u', 'l', 'l']
  | true : Spelled (bool true) ['t', 'r', 'u', 'e']
  | false : Spelled (bool false) ['f', 'a', 'l', 's', 'e']
  | number {n : Numeral} {cs : List Char} (h : n.Spelled cs) : Spelled (number n) cs
  | string {t : Text} {cs : List Char} (h : t.Spelled cs) :
      Spelled (string t) ('"' :: (cs ++ ['"']))

/-- The tokens can be written as these characters: one after the other, with blanks
before, between and after them. -/
inductive Row : List Token → List Char → Prop where
  | nil {blanks : List Char} (hb : ∀ c ∈ blanks, isBlank c = Bool.true) : Row [] blanks
  | cons {t : Token} {ts : List Token} {blanks cs rest : List Char}
      (hb : ∀ c ∈ blanks, isBlank c = Bool.true) (h : t.Spelled cs) (hs : Row ts rest) :
      Row (t :: ts) (blanks ++ (cs ++ rest))

def isNumber : Token → Bool
  | number _ => Bool.true
  | _ => Bool.false

/-! ### One token -/

theorem spelled_of_next? {cs rest : List Char} {t : Token} (h : next? cs = some (t, rest)) :
    ∃ w, t.Spelled w ∧ cs = w ++ rest := by
  unfold next? at h
  split at h
  case h_10 cs =>
    obtain ⟨⟨ps, tail⟩, htail, h⟩ := Option.map_eq_some_iff.mp h
    cases h
    obtain ⟨ws, hws, rfl⟩ := Text.marks_of_scan? htail
    exact ⟨_, .string (Text.spelled_iff.mpr ⟨ps, hws, rfl⟩), by simp⟩
  case h_11 c cs _ _ _ _ _ _ _ _ _ _ =>
    split at h
    · obtain ⟨n, hn, h⟩ := Option.map_eq_some_iff.mp h
      cases h
      exact ⟨_, .number (Numeral.ofLiteral?_eq_some_iff.mp hn), by simp⟩
    · cases h
  case h_12 => cases h
  all_goals cases h
  case h_1 => exact ⟨_, .openBrace, rfl⟩
  case h_2 => exact ⟨_, .closeBrace, rfl⟩
  case h_3 => exact ⟨_, .openBracket, rfl⟩
  case h_4 => exact ⟨_, .closeBracket, rfl⟩
  case h_5 => exact ⟨_, .colon, rfl⟩
  case h_6 => exact ⟨_, .comma, rfl⟩
  case h_7 => exact ⟨_, .null, rfl⟩
  case h_8 => exact ⟨_, .true, rfl⟩
  case h_9 => exact ⟨_, .false, rfl⟩

/-- What may begin a number is not what may not. -/
theorem ne_of_begins {c b : Char} (hc : (c = '-' || c.isDigit) = Bool.true)
    (hb : (b = '-' || b.isDigit) = Bool.false) : c ≠ b := by
  rintro rfl
  simp [hc] at hb

theorem next?_cons_of_number {c : Char} {cs : List Char} (hc : (c = '-' || c.isDigit) = Bool.true) :
    next? (c :: cs) = (Numeral.ofLiteral? (c :: cs.takeWhile Numeral.isPart)).map fun n =>
      (number n, cs.dropWhile Numeral.isPart) := by
  rw [next?, if_pos hc]
  · exact ne_of_begins hc (b := '{') rfl
  · exact ne_of_begins hc (b := '}') rfl
  · exact ne_of_begins hc (b := '[') rfl
  · exact ne_of_begins hc (b := ']') rfl
  · exact ne_of_begins hc (b := ':') rfl
  · exact ne_of_begins hc (b := ',') rfl
  · exact fun _ h _ => ne_of_begins hc (b := 'n') rfl h
  · exact fun _ h _ => ne_of_begins hc (b := 't') rfl h
  · exact fun _ h _ => ne_of_begins hc (b := 'f') rfl h
  · exact ne_of_begins hc (b := '"') rfl

/-- A number is read as far as it goes, any other token as long as it is. -/
theorem Spelled.next? {t : Token} {cs : List Char} (h : t.Spelled cs) {rest : List Char}
    (hrest : t.isNumber = Bool.true → ∀ c, rest.head? = some c → Numeral.isPart c = Bool.false) :
    next? (cs ++ rest) = some (t, rest) := by
  cases h with
  | number h =>
      obtain ⟨c, cs, rfl, hc, hcs⟩ := h.eq_cons
      obtain ⟨htake, hdrop⟩ := Numeral.takeWhile_dropWhile_append hcs (hrest rfl)
      rw [List.cons_append, next?_cons_of_number hc, htake, hdrop,
        Numeral.ofLiteral?_eq_some_iff.mpr h, Option.map_some]
  | string h =>
      obtain ⟨ps, hps, rfl⟩ := Text.spelled_iff.mp h
      simp [Token.next?, hps.scan?]
  | _ => rfl

/-- Only a number begins with a character of numbers, and none with a blank. -/
theorem Spelled.eq_cons {t : Token} {cs : List Char} (h : t.Spelled cs) :
    ∃ c rest, cs = c :: rest ∧ isBlank c = Bool.false ∧
      (t.isNumber = Bool.false → Numeral.isPart c = Bool.false) := by
  cases h with
  | number h =>
      obtain ⟨c, rest, rfl, hc, -⟩ := h.eq_cons
      refine ⟨c, rest, rfl, ?_, fun hn => by cases hn⟩
      simp [isBlank, ne_of_begins hc (b := ' ') rfl, ne_of_begins hc (b := '\t') rfl,
        ne_of_begins hc (b := '\n') rfl, ne_of_begins hc (b := '\r') rfl]
  | _ => exact ⟨_, _, rfl, by decide, fun _ => by decide⟩

/-! ### Rows of tokens -/

theorem takeWhile_isBlank (cs : List Char) : ∀ c ∈ cs.takeWhile isBlank, isBlank c = Bool.true :=
  List.all_eq_true.mp List.all_takeWhile

/-- A row goes on behind the first token that is found. -/
theorem Row.cons_of_next? {cs rest : List Char} {t : Token} {ts : List Token}
    (h : Token.next? (cs.dropWhile isBlank) = some (t, rest)) (hs : Row ts rest) :
    Row (t :: ts) cs := by
  obtain ⟨w, hw, hcs⟩ := spelled_of_next? h
  rw [← List.takeWhile_append_dropWhile (p := isBlank) (l := cs), hcs]
  exact .cons (takeWhile_isBlank cs) hw hs

theorem row_of_scan? {cs : List Char} {ts : List Token} (h : scan? cs = some ts) : Row ts cs := by
  fun_induction scan? cs generalizing ts with
  | case1 cs hcs =>
    cases h
    rw [← List.takeWhile_append_dropWhile (p := isBlank) (l := cs), List.isEmpty_iff.mp hcs,
      List.append_nil]
    exact .nil (takeWhile_isBlank cs)
  | case2 cs hcs hnone => cases h
  | case3 cs hcs t rest hnext ih =>
    obtain ⟨ts, hts, rfl⟩ := Option.map_eq_some_iff.mp h
    exact .cons_of_next? hnext (ih hts)

/-- No number stands next to another. -/
def Apart (ts : List Token) : Prop :=
  ts.IsChain fun t u => t.isNumber = Bool.true → u.isNumber = Bool.false

/-- These tokens stay apart behind any other. -/
def Detached (ts : List Token) : Prop :=
  Apart ts ∧ ∀ t, ts.head? = some t → t.isNumber = Bool.false

theorem detached_nil : Detached [] :=
  ⟨.nil, by simp⟩

theorem Detached.behind {ts : List Token} (h : Detached ts) (t : Token) : Apart (t :: ts) :=
  List.isChain_cons.mpr ⟨fun u hu _ => h.2 u hu, h.1⟩

theorem Apart.cons {t : Token} (ht : t.isNumber = Bool.false) {ts : List Token} (h : Apart ts) :
    Apart (t :: ts) :=
  List.isChain_cons.mpr ⟨fun _ _ hnumber => by simp [ht] at hnumber, h⟩

theorem Detached.cons {t : Token} (ht : t.isNumber = Bool.false) {ts : List Token}
    (h : Apart ts) : Detached (t :: ts) :=
  ⟨h.cons ht, fun u hu => by cases hu; exact ht⟩

theorem isPart_of_isBlank {c : Char} (h : isBlank c = Bool.true) :
    Numeral.isPart c = Bool.false := by
  have hc : ((c = ' ' ∨ c = '\t') ∨ c = '\n') ∨ c = '\r' := by simpa [isBlank] using h
  rcases hc with ((rfl | rfl) | rfl) | rfl <;> rfl

/-- A row that does not begin with a number does not begin with a character of one. -/
theorem Row.isPart_head {ts : List Token} {cs : List Char} (h : Row ts cs)
    (hts : ∀ t, ts.head? = some t → t.isNumber = Bool.false) :
    ∀ c, cs.head? = some c → Numeral.isPart c = Bool.false := by
  intro c hc
  cases h with
  | nil hb => exact isPart_of_isBlank (hb c (List.mem_of_head? hc))
  | @cons t ts blanks w rest hb h hs =>
      cases blanks with
      | cons b blanks =>
          cases hc
          exact isPart_of_isBlank (hb c List.mem_cons_self)
      | nil =>
          obtain ⟨c', w, rfl, -, hpart⟩ := h.eq_cons
          cases hc
          exact hpart (hts t rfl)

theorem scan?_of_blanks {cs : List Char} (hb : ∀ c ∈ cs, isBlank c = Bool.true) :
    scan? cs = some [] := by
  have hdrop : cs.dropWhile isBlank = [] := by
    simpa using (@Numeral.takeWhile_dropWhile_append _ cs [] hb (by simp)).2
  rw [scan?, hdrop]
  rfl

/-- Blanks and the first token are taken off a text. -/
theorem scan?_append {t : Token} {blanks w rest : List Char}
    (hb : ∀ c ∈ blanks, isBlank c = Bool.true) (h : t.Spelled w)
    (hnext : next? (w ++ rest) = some (t, rest)) :
    scan? (blanks ++ (w ++ rest)) = (scan? rest).map (t :: ·) := by
  obtain ⟨c, w', rfl, hc, -⟩ := h.eq_cons
  have hdrop : (blanks ++ (c :: w' ++ rest)).dropWhile isBlank = c :: w' ++ rest :=
    (Numeral.takeWhile_dropWhile_append hb (by rintro _ ⟨⟩; exact hc)).2
  rw [scan?, hdrop, if_neg (by simp)]
  split
  · next hnone =>
    rw [hnext] at hnone
    cases hnone
  · next hsome =>
    rw [hnext] at hsome
    cases hsome
    rfl

theorem Row.scan? {ts : List Token} {cs : List Char} (h : Row ts cs) (hts : Apart ts) :
    scan? cs = some ts := by
  induction h with
  | nil hb => exact scan?_of_blanks hb
  | cons hb h hs ih =>
      obtain ⟨hhead, hts⟩ := List.isChain_cons.mp hts
      have hnext := h.next? fun hnumber => hs.isPart_head fun u hu => hhead u hu hnumber
      rw [scan?_append hb h hnext, ih hts, Option.map_some]

end Token

/-- The value can be written as this text. -/
def Spelled (v : Json) (text : String) : Prop :=
  Token.Row v.tokens text.toList

/-- The tokens of this value stay apart, also from what may follow it. -/
def StaysApart (v : Json) : Prop :=
  ∀ rest, Token.Detached rest → Token.Apart (v.tokens ++ rest)

theorem detached_moreElements {vs : List Json} (hvs : ∀ v ∈ vs, StaysApart v)
    {rest : List Token} (hrest : Token.Apart rest) : Token.Detached (moreElements vs ++ rest) := by
  induction vs with
  | nil => exact .cons rfl hrest
  | cons v vs ih =>
      obtain ⟨hv, hvs⟩ := List.forall_mem_cons.mp hvs
      rw [moreElements, List.cons_append, List.append_assoc]
      exact .cons rfl (hv _ (ih hvs))

/-- The name of a member keeps its value from what is before it. -/
theorem apart_name (name : Text) {ts : List Token} (h : Token.Apart ts) :
    Token.Apart (.string name :: .colon :: ts) :=
  .cons rfl (.cons rfl h)

theorem detached_moreMembers {ms : List (Text × Json)} (hms : ∀ m ∈ ms, StaysApart m.2)
    {rest : List Token} (hrest : Token.Apart rest) : Token.Detached (moreMembers ms ++ rest) := by
  induction ms with
  | nil => exact .cons rfl hrest
  | cons m ms ih =>
      obtain ⟨name, v⟩ := m
      obtain ⟨hv, hms⟩ := List.forall_mem_cons.mp hms
      rw [moreMembers, List.cons_append, List.cons_append, List.cons_append, List.append_assoc]
      exact .cons rfl (apart_name name (hv _ (ih hms)))

theorem staysApart (v : Json) : StaysApart v := by
  induction v using induction with
  | null | bool _ | number _ | string _ => exact fun rest hrest => hrest.behind _
  | array elements ih =>
      intro rest hrest
      cases elements with
      | nil => exact .cons rfl (.cons rfl hrest.1)
      | cons v vs =>
          obtain ⟨hv, hvs⟩ := List.forall_mem_cons.mp ih
          rw [tokens, List.cons_append, List.append_assoc]
          exact .cons rfl (hv _ (detached_moreElements hvs hrest.1))
  | object members ih =>
      intro rest hrest
      cases members with
      | nil => exact .cons rfl (.cons rfl hrest.1)
      | cons m ms =>
          obtain ⟨name, v⟩ := m
          obtain ⟨hv, hms⟩ := List.forall_mem_cons.mp ih
          rw [tokens, List.cons_append, List.cons_append, List.cons_append, List.append_assoc]
          exact .cons rfl (apart_name name (hv _ (detached_moreMembers hms hrest.1)))

theorem apart_tokens (v : Json) : Token.Apart v.tokens := by
  simpa using staysApart v [] Token.detached_nil

/-- A text is read as what can be written as it. -/
theorem read?_eq_some_iff {text : String} {v : Json} : read? text = some v ↔ v.Spelled text := by
  constructor
  · intro h
    obtain ⟨ts, hts, h⟩ := Option.bind_eq_some_iff.mp h
    obtain rfl := ofTokens?_eq_some_iff.mp h
    exact Token.row_of_scan? hts
  · intro h
    rw [read?, h.scan? (apart_tokens v)]
    exact ofTokens?_eq_some_iff.mpr rfl

/-! ### The compact text -/

/-- Every number of the value is an integer, or its literal spells it. -/
def Writable (v : Json) : Prop :=
  ∀ n, .number n ∈ v.tokens → n.Spelled n.literal.toList

theorem Token.spelled_write {t : Token} (h : ∀ n, t = .number n → n.Spelled n.literal.toList) :
    t.Spelled t.write := by
  cases t with
  | openBrace => exact .openBrace
  | closeBrace => exact .closeBrace
  | openBracket => exact .openBracket
  | closeBracket => exact .closeBracket
  | colon => exact .colon
  | comma => exact .comma
  | null => exact .null
  | bool b =>
      cases b with
      | true => exact .true
      | false => exact .false
  | number n => exact .number (h n rfl)
  | string t =>
      obtain ⟨ws, hws, hbody⟩ := t.body_eq
      rw [write, hbody]
      exact .string hws

theorem Token.row_write {ts : List Token}
    (h : ∀ n, .number n ∈ ts → n.Spelled n.literal.toList) : Row ts (ts.flatMap write) := by
  induction ts with
  | nil => exact .nil (by simp)
  | cons t ts ih =>
      have ht : t.Spelled t.write := spelled_write fun n hn => h n (by simp [hn])
      have hts := ih fun n hn => h n (List.mem_cons_of_mem _ hn)
      exact @Row.cons t ts [] _ _ (by simp) ht hts

theorem Writable.spelled_write {v : Json} (h : v.Writable) : v.Spelled v.write := by
  rw [Spelled, write, String.toList_ofList]
  exact Token.row_write h

end WhileLang.Json
