import WhileLang.Proofs.Json.Spelling

/-!
# Written texts have no control characters

A control character cannot stand in a literal but by its escape, and the other tokens are
words, numbers and marks. So there is none in any spelling of any token, and a text that
is written as its tokens, without blanks between them, has none at all.

This carries over to bytes, which is where it is needed. In UTF-8 a byte below 0x20 is a
control character and never a part of another one: what takes more than one byte has the
highest bit set in each of them.
-/

namespace WhileLang

namespace Json

/-- There is no control character below U+0020 among these. -/
def Printable (cs : List Char) : Prop :=
  ∀ c ∈ cs, ' ' ≤ c

theorem Printable.nil : Printable [] := by
  intro c hc
  cases hc

theorem Printable.cons {c : Char} {cs : List Char} (hc : ' ' ≤ c) (h : Printable cs) :
    Printable (c :: cs) :=
  List.forall_mem_cons.mpr ⟨hc, h⟩

theorem Printable.append {cs cs' : List Char} (h : Printable cs) (h' : Printable cs') :
    Printable (cs ++ cs') :=
  List.forall_mem_append.mpr ⟨h, h'⟩

instance (cs : List Char) : Decidable (Printable cs) :=
  List.decidableBAll (' ' ≤ ·) cs

/-! ### Spellings -/

namespace Text

theorem le_of_hexValue? {c : Char} {n : Nat} (h : hexValue? c = some n) : ' ' ≤ c := by
  rw [hexValue?] at h
  split at h
  · next hdigit => exact Char.le_trans (by decide) hdigit.1
  · split at h
    · next hlower => exact Char.le_trans (by decide) hlower.1
    · split at h
      · next hupper => exact Char.le_trans (by decide) hupper.1
      · cases h

theorem printable_of_hexUnit? {a b c d : Char} {unit : Nat} (h : hexUnit? a b c d = some unit) :
    Printable [a, b, c, d] := by
  obtain ⟨_, ha, h⟩ := Option.bind_eq_some_iff.mp h
  obtain ⟨_, hb, h⟩ := Option.bind_eq_some_iff.mp h
  obtain ⟨_, hc, h⟩ := Option.bind_eq_some_iff.mp h
  obtain ⟨_, hd, h⟩ := Option.bind_eq_some_iff.mp h
  have hlast : Printable [c, d] :=
    .cons (le_of_hexValue? hc) (.cons (le_of_hexValue? hd) .nil)
  exact .cons (le_of_hexValue? ha) (.cons (le_of_hexValue? hb) hlast)

theorem le_of_shortEscape? {e c : Char} (h : shortEscape? e = some c) : ' ' ≤ e := by
  unfold shortEscape? at h
  split at h
  case h_9 => cases h
  all_goals decide

theorem Mark.printable {p : Piece} {w : List Char} (h : Mark p w) : Printable w := by
  cases h with
  | raw hc => exact .cons hc .nil
  | short h => exact .cons (by decide) (.cons (le_of_shortEscape? h) .nil)
  | unit h => exact .cons (by decide) (.cons (by decide) (printable_of_hexUnit? h))

theorem Marks.printable {ps : List Piece} {ws : List Char} (h : Marks ps ws) : Printable ws := by
  induction h with
  | nil => exact .nil
  | cons h _ ih => exact h.printable.append ih

end Text

theorem Numeral.le_of_isPart {c : Char} (h : isPart c = true) : ' ' ≤ c := by
  simp only [isPart, Bool.or_eq_true, decide_eq_true_eq] at h
  rcases h with ((((hdigit | rfl) | rfl) | rfl) | rfl) | rfl
  · obtain ⟨hzero, -⟩ := Bool.and_eq_true_iff.mp hdigit
    exact UInt32.le_trans (by decide) (of_decide_eq_true hzero)
  all_goals decide

theorem Numeral.Spelled.printable {n : Numeral} {cs : List Char} (h : n.Spelled cs) :
    Printable cs := by
  obtain ⟨c, rest, rfl, hc, hrest⟩ := h.eq_cons
  refine .cons (Numeral.le_of_isPart ?_) fun d hd => Numeral.le_of_isPart (hrest d hd)
  rcases Bool.or_eq_true_iff.mp hc with hminus | hdigit
  · simp [isPart, of_decide_eq_true hminus]
  · exact isPart_of_isDigit hdigit

theorem Token.Spelled.printable {t : Token} {cs : List Char} (h : t.Spelled cs) :
    Printable cs := by
  cases h with
  | number h => exact h.printable
  | string h =>
      obtain ⟨_, hmarks, -⟩ := Text.spelled_iff.mp h
      exact .cons (by decide) (hmarks.printable.append (by decide))
  | _ => decide

theorem Writable.printable {v : Json} (h : v.Writable) : Printable v.write.toList := by
  intro c hc
  rw [write, String.toList_ofList] at hc
  obtain ⟨t, ht, hc⟩ := List.mem_flatMap.mp hc
  have hspelled : t.Spelled t.write := Token.spelled_write fun n hn => h n (hn ▸ ht)
  exact hspelled.printable c hc

end Json

/-! ### Bytes -/

/-- The bytes of a text in UTF-8. -/
def utf8 (text : String) : List UInt8 :=
  text.toUTF8.data.toList

theorem utf8_eq_flatMap (text : String) : utf8 text = text.toList.flatMap String.utf8EncodeChar := by
  rw [utf8, String.toUTF8_eq_toByteArray, ← String.utf8Encode_toList, List.utf8Encode,
    List.data_toByteArray]

theorem le_of_mem_utf8EncodeChar {c : Char} (hc : ' ' ≤ c) {b : UInt8}
    (hb : b ∈ String.utf8EncodeChar c) : 0x20 ≤ b := by
  have hc : 32 ≤ c.val.toNat := hc
  have hle : ∀ n, 32 ≤ n → n < 256 → (0x20 : UInt8) ≤ UInt8.ofNat n := by
    intro n hn hlt
    rw [UInt8.le_iff_toNat_le, UInt8.toNat_ofNat', Nat.mod_eq_of_lt hlt]
    exact hn
  simp only [String.utf8EncodeChar] at hb
  split at hb
  · next hascii =>
    obtain rfl := List.mem_singleton.mp hb
    exact hle _ hc (by omega)
  · split at hb
    · simp only [List.mem_cons, List.not_mem_nil, or_false] at hb
      rcases hb with rfl | rfl <;> exact hle _ (by omega) (by omega)
    · split at hb
      · simp only [List.mem_cons, List.not_mem_nil, or_false] at hb
        rcases hb with rfl | rfl | rfl <;> exact hle _ (by omega) (by omega)
      · simp only [List.mem_cons, List.not_mem_nil, or_false] at hb
        rcases hb with rfl | rfl | rfl | rfl <;> exact hle _ (by omega) (by omega)

theorem le_of_mem_utf8 {text : String} (h : Json.Printable text.toList) {b : UInt8}
    (hb : b ∈ utf8 text) : 0x20 ≤ b := by
  rw [utf8_eq_flatMap] at hb
  obtain ⟨c, hc, hb⟩ := List.mem_flatMap.mp hb
  exact le_of_mem_utf8EncodeChar (h c hc) hb

end WhileLang
