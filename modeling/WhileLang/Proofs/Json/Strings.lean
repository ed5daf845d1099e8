import WhileLang.Json.Text

/-!
# The literals of a text

How a text can be written is said character by character: raw, by a short escape, by
the escape of its one unit of UTF-16, or by the escapes of its two. The reader sees
less at a time. It takes marks, each a raw character or one escape, and joins halves
afterwards; only then is it known whether the literal spells a text at all. So the
proofs go by marks: a literal is one row of them, and the row spells the characters
that it joins to (`Marks.letters`, `Letters.marks`).
-/

namespace WhileLang.Json.Text

/-- One raw character or one escape, and the piece that it contributes. -/
inductive Mark : Piece → List Char → Prop where
  | raw {c : Char} (hc : ' ' ≤ c) (hquote : c ≠ '"') (hbackslash : c ≠ '\\') :
      Mark (.scalar c) [c]
  | short {e c : Char} (h : shortEscape? e = some c) : Mark (.scalar c) ['\\', e]
  | unit {a b c d : Char} {unit : Nat} (h : hexUnit? a b c d = some unit) :
      Mark (.ofUnit unit) ['\\', 'u', a, b, c, d]

inductive Marks : List Piece → List Char → Prop where
  | nil : Marks [] []
  | cons {p : Piece} {ps : List Piece} {w ws : List Char} (h : Mark p w) (hs : Marks ps ws) :
      Marks (p :: ps) (w ++ ws)

/-- The character can be written this way inside a literal. -/
inductive Letter : Char → List Char → Prop where
  | raw {x : Char} (hx : ' ' ≤ x) (hquote : x ≠ '"') (hbackslash : x ≠ '\\') : Letter x [x]
  | short {e x : Char} (h : shortEscape? e = some x) : Letter x ['\\', e]
  | unit {a b c d x : Char} (h : hexUnit? a b c d = some x.toNat) :
      Letter x ['\\', 'u', a, b, c, d]
  | pair {a b c d a' b' c' d' x : Char} {upper lower : Nat} (hupper : upper < 0x400)
      (hlower : lower < 0x400) (hx : x.toNat = 0x10000 + upper * 0x400 + lower)
      (h : hexUnit? a b c d = some (0xD800 + upper))
      (h' : hexUnit? a' b' c' d' = some (0xDC00 + lower)) :
      Letter x ['\\', 'u', a, b, c, d, '\\', 'u', a', b', c', d']

inductive Letters : List Char → List Char → Prop where
  | nil : Letters [] []
  | cons {x : Char} {xs w ws : List Char} (h : Letter x w) (hs : Letters xs ws) :
      Letters (x :: xs) (w ++ ws)

/-- The text can be written this way between the quotes of a literal. What is no text
is a literal all the same, as long as its marks are. -/
inductive Spelled : Text → List Char → Prop where
  | unicode {s : String} {ws : List Char} (h : Letters s.toList ws) : Spelled (unicode s) ws
  | illFormed {ps : List Piece} {ws : List Char} (h : Marks ps ws)
      (hnone : ∀ xs, ¬Letters xs ws) : Spelled illFormed ws

/-! ### Marks -/

theorem Mark.scan? {p : Piece} {w : List Char} (h : Mark p w) (rest : List Char) :
    scan? (w ++ rest) = (scan? rest).map fun r => (p :: r.1, r.2) := by
  cases h with
  | @raw c hc hquote hbackslash =>
      rw [List.singleton_append, Text.scan?, if_neg (Char.not_lt.mpr hc)]
      · cases Text.scan? rest <;> rfl
      · exact hquote
      · exact fun _ _ _ _ _ h _ => hbackslash h
      · exact fun _ _ h _ => hbackslash h
  | @short e c h =>
      have he : e ≠ 'u' := by
        rintro rfl
        cases h
      rw [List.cons_append, List.singleton_append, Text.scan?, h]
      · cases Text.scan? rest <;> rfl
      · exact fun _ _ _ _ _ h _ => he h
  | unit h =>
      simp only [List.cons_append, List.nil_append, Text.scan?, h]
      cases Text.scan? rest <;> rfl

theorem Marks.scan? {ps : List Piece} {ws : List Char} (h : Marks ps ws) (rest : List Char) :
    scan? (ws ++ '"' :: rest) = some (ps, rest) := by
  induction h with
  | nil => simp [Text.scan?]
  | cons h _ ih => rw [List.append_assoc, h.scan?, ih, Option.map_some]

theorem marks_of_scan? {cs rest : List Char} {ps : List Piece} (h : scan? cs = some (ps, rest)) :
    ∃ ws, Marks ps ws ∧ cs = ws ++ '"' :: rest := by
  fun_induction scan? cs generalizing ps with
  | case1 => cases h
  | case2 =>
    cases h
    exact ⟨[], .nil, rfl⟩
  | case3 a b c d tail ih =>
    obtain ⟨unit, hunit, h⟩ := Option.bind_eq_some_iff.mp h
    obtain ⟨⟨ps', tail'⟩, htail, h⟩ := Option.bind_eq_some_iff.mp h
    cases h
    obtain ⟨ws, hws, rfl⟩ := ih htail
    exact ⟨_, .cons (.unit hunit) hws, rfl⟩
  | case4 e tail _ ih =>
    obtain ⟨c, hc, h⟩ := Option.bind_eq_some_iff.mp h
    obtain ⟨⟨ps', tail'⟩, htail, h⟩ := Option.bind_eq_some_iff.mp h
    cases h
    obtain ⟨ws, hws, rfl⟩ := ih htail
    exact ⟨_, .cons (.short hc) hws, rfl⟩
  | case5 => cases h
  | case6 c tail hquote _ hbackslash hc ih =>
    obtain ⟨⟨ps', tail'⟩, htail, h⟩ := Option.bind_eq_some_iff.mp h
    cases h
    obtain ⟨ws, hws, rfl⟩ := ih htail
    have hne : c ≠ '\\' := fun hc => by
      cases ws with
      | nil => exact hbackslash _ _ hc rfl
      | cons e ws => exact hbackslash _ _ hc rfl
    exact ⟨_, .cons (.raw (Char.not_lt.mp hc) hquote hne) hws, rfl⟩

theorem Marks.unique {ps ps' : List Piece} {ws : List Char} (h : Marks ps ws)
    (h' : Marks ps' ws) : ps = ps' :=
  (Prod.mk.inj (Option.some.inj ((h.scan? []).symm.trans (h'.scan? [])))).1

/-! ### Units -/

theorem hexValue?_lt {c : Char} {n : Nat} (h : hexValue? c = some n) : n < 16 := by
  have hle : ∀ {a b : Char}, a ≤ b → a.toNat ≤ b.toNat := fun h => h
  have h9 : '9'.toNat = '0'.toNat + 9 := rfl
  have hf : 'f'.toNat = 'a'.toNat + 5 := rfl
  have hF : 'F'.toNat = 'A'.toNat + 5 := rfl
  rw [hexValue?] at h
  split at h
  · next hdigit =>
    cases h
    have := hle hdigit.2
    omega
  · split at h
    · next hlower =>
      cases h
      have := hle hlower.2
      omega
    · split at h
      · next hupper =>
        cases h
        have := hle hupper.2
        omega
      · cases h

theorem hexUnit?_lt {a b c d : Char} {unit : Nat} (h : hexUnit? a b c d = some unit) :
    unit < 0x10000 := by
  obtain ⟨a', ha, h⟩ := Option.bind_eq_some_iff.mp h
  obtain ⟨b', hb, h⟩ := Option.bind_eq_some_iff.mp h
  obtain ⟨c', hc, h⟩ := Option.bind_eq_some_iff.mp h
  obtain ⟨d', hd, h⟩ := Option.bind_eq_some_iff.mp h
  cases h
  have := hexValue?_lt ha
  have := hexValue?_lt hb
  have := hexValue?_lt hc
  have := hexValue?_lt hd
  omega

theorem toNat_ofNat {n : Nat} (h : n.isValidChar) : (Char.ofNat n).toNat = n := by
  rw [Char.ofNat, dif_pos h]
  rfl

namespace Piece

theorem ofUnit_eq_leading_iff {unit upper : Nat} :
    ofUnit unit = leading upper ↔ unit = 0xD800 + upper ∧ upper < 0x400 := by
  rw [ofUnit]
  split
  · rw [leading.injEq]
    omega
  · split <;> simp only [reduceCtorEq, false_iff] <;> omega

theorem ofUnit_eq_trailing_iff {unit lower : Nat} :
    ofUnit unit = trailing lower ↔ unit = 0xDC00 + lower ∧ lower < 0x400 := by
  rw [ofUnit]
  split
  · simp only [reduceCtorEq, false_iff]
    omega
  · split
    · rw [trailing.injEq]
      omega
    · simp only [reduceCtorEq, false_iff]
      omega

/-- A unit that is no half of a pair spells the character of that number. -/
theorem ofUnit_eq_scalar_iff {unit : Nat} (h : unit < 0x10000) {x : Char} :
    ofUnit unit = scalar x ↔ unit = x.toNat := by
  have hvalid : x.toNat < 0xD800 ∨ 0xDFFF < x.toNat ∧ x.toNat < 0x110000 := x.valid
  rw [ofUnit]
  split
  · simp only [reduceCtorEq, false_iff]
    omega
  · split
    · simp only [reduceCtorEq, false_iff]
      omega
    · rw [scalar.injEq]
      constructor
      · rintro rfl
        exact (toNat_ofNat (by rw [Nat.isValidChar]; omega)).symm
      · rintro rfl
        exact Char.ofNat_toNat x

end Piece

/-- A mark that spells no character is a unit. -/
theorem Mark.exists_unit {p : Piece} {w : List Char} (h : Mark p w) (hp : ∀ x, p ≠ .scalar x) :
    ∃ a b c d unit, hexUnit? a b c d = some unit ∧ .ofUnit unit = p ∧
      w = ['\\', 'u', a, b, c, d] := by
  cases h with
  | raw => exact absurd rfl (hp _)
  | short => exact absurd rfl (hp _)
  | unit h => exact ⟨_, _, _, _, _, h, rfl, rfl⟩

theorem Mark.letter {x : Char} {w : List Char} (h : Mark (.scalar x) w) : Letter x w := by
  generalize hp : Piece.scalar x = p at h
  cases h with
  | raw hc hquote hbackslash =>
      cases hp
      exact .raw hc hquote hbackslash
  | short h =>
      cases hp
      exact .short h
  | unit h =>
      rw [(Piece.ofUnit_eq_scalar_iff (hexUnit?_lt h)).mp hp.symm] at h
      exact .unit h

/-! ### Texts -/

theorem Marks.letters {ps : List Piece} {ws xs : List Char} (h : Marks ps ws)
    (hx : characters? ps = some xs) : Letters xs ws := by
  fun_induction characters? ps generalizing ws xs with
  | case1 =>
    cases hx
    cases h
    exact .nil
  | case2 x ps ih =>
    obtain ⟨xs, hxs, rfl⟩ := Option.map_eq_some_iff.mp hx
    cases h with
    | cons h hs => exact .cons h.letter (ih hs hxs)
  | case3 upper lower ps ih =>
    obtain ⟨xs, hxs, rfl⟩ := Option.map_eq_some_iff.mp hx
    obtain _ | ⟨hfirst, _ | ⟨hsecond, hs⟩⟩ := h
    obtain ⟨a, b, c, d, unit, hunit, hp, rfl⟩ := hfirst.exists_unit (by simp)
    obtain ⟨a', b', c', d', unit', hunit', hp', rfl⟩ := hsecond.exists_unit (by simp)
    obtain ⟨rfl, hupper⟩ := Piece.ofUnit_eq_leading_iff.mp hp
    obtain ⟨rfl, hlower⟩ := Piece.ofUnit_eq_trailing_iff.mp hp'
    rw [← List.append_assoc]
    exact .cons (.pair hupper hlower (toNat_ofNat (by rw [Nat.isValidChar]; omega)) hunit hunit')
      (ih hs hxs)
  | case4 => cases hx

theorem Letter.marks {x : Char} {w : List Char} (h : Letter x w) {ps : List Piece}
    {xs ws : List Char} (hs : Marks ps ws) (hx : characters? ps = some xs) :
    ∃ ps, Marks ps (w ++ ws) ∧ characters? ps = some (x :: xs) := by
  cases h with
  | raw hc hquote hbackslash =>
      exact ⟨_, .cons (.raw hc hquote hbackslash) hs, by rw [characters?, hx, Option.map_some]⟩
  | short h => exact ⟨_, .cons (.short h) hs, by rw [characters?, hx, Option.map_some]⟩
  | unit h =>
      have hp : Piece.ofUnit x.toNat = .scalar x :=
        (Piece.ofUnit_eq_scalar_iff (hexUnit?_lt h)).mpr rfl
      exact ⟨_, .cons (.unit h) hs, by rw [hp, characters?, hx, Option.map_some]⟩
  | pair hupper hlower hnat h h' =>
      have hp := Piece.ofUnit_eq_leading_iff.mpr ⟨rfl, hupper⟩
      have hp' := Piece.ofUnit_eq_trailing_iff.mpr ⟨rfl, hlower⟩
      have hmarks := Marks.cons (.unit h) (.cons (.unit h') hs)
      rw [← List.append_assoc] at hmarks
      refine ⟨_, hmarks, ?_⟩
      rw [hp, hp', characters?, hx, Option.map_some, ← hnat, Char.ofNat_toNat]

theorem Letters.marks {xs ws : List Char} (h : Letters xs ws) :
    ∃ ps, Marks ps ws ∧ characters? ps = some xs := by
  induction h with
  | nil => exact ⟨[], .nil, rfl⟩
  | cons h _ ih =>
      obtain ⟨ps, hs, hx⟩ := ih
      exact h.marks hs hx

/-- What a literal is taken for, by its marks. -/
theorem spelled_iff {t : Text} {ws : List Char} :
    Spelled t ws ↔ ∃ ps, Marks ps ws ∧ ofPieces ps = t := by
  constructor
  · rintro (⟨h⟩ | ⟨h, hnone⟩)
    · obtain ⟨ps, hs, hx⟩ := h.marks
      exact ⟨ps, hs, by simp [ofPieces, hx]⟩
    · refine ⟨_, h, ?_⟩
      rw [ofPieces]
      split
      · next xs hx => exact absurd (h.letters hx) (hnone xs)
      · rfl
  · rintro ⟨ps, h, rfl⟩
    rw [ofPieces]
    split
    · next xs hx =>
      refine .unicode ?_
      rw [String.toList_ofList]
      exact h.letters hx
    · next hx =>
      refine .illFormed h fun xs hxs => ?_
      obtain ⟨ps', h', hx'⟩ := hxs.marks
      rw [h.unique h', hx'] at hx
      cases hx

/-! ### Writing -/

theorem letter_escape (x : Char) : Letter x (escape x) := by
  unfold escape
  split
  case h_8 _ hquote hbackslash _ _ _ _ _ =>
    split
    case isTrue hx =>
      have hunit : ∀ n < 32, hexUnit? '0' '0' (hexDigit (n / 16)) (hexDigit (n % 16)) = some n := by
        decide
      exact .unit (hunit x.toNat hx)
    case isFalse hx => exact .raw (Char.not_lt.mp hx) hquote hbackslash
  all_goals exact .short rfl

theorem letters_flatMap_escape (xs : List Char) : Letters xs (xs.flatMap escape) := by
  induction xs with
  | nil => exact .nil
  | cons x xs ih => exact .cons (letter_escape x) ih

/-- What is written for a text is one of its literals. -/
theorem body_eq (t : Text) : ∃ ws, Spelled t ws ∧ t.body = ws ++ ['"'] := by
  cases t with
  | unicode s => exact ⟨_, .unicode (letters_flatMap_escape s.toList), rfl⟩
  | illFormed =>
      have hunit : hexUnit? 'd' '8' '0' '0' = some 0xD800 := by decide
      exact ⟨_, spelled_iff.mpr ⟨_, .cons (.unit hunit) .nil, rfl⟩, rfl⟩

end WhileLang.Json.Text
