import WhileLang.Json.Numeral

/-!
# The literals of a number

What can be written for a number is said here as a grammar: an integer has its
decimal digits and nothing else, and every other literal is a whole part with a
fraction, an exponent, both, or the sign of a negative zero. The reader looks for the
parts of a literal instead, by where the digits stop. That both agree
(`ofLiteral?_eq_some_iff`) rests on one fact about digits: those without a leading zero
are the decimal digits of the number they stand for.
-/

namespace WhileLang.Json.Numeral

def Digits (ds : List Char) : Prop :=
  ds ≠ [] ∧ ∀ d ∈ ds, d.isDigit = true

/-- What may stand for a fraction: nothing, or a point and digits. -/
inductive Fraction : List Char → Prop where
  | nil : Fraction []
  | point {ds : List Char} (h : Digits ds) : Fraction ('.' :: ds)

/-- What may stand for an exponent: nothing, or one letter and digits, with or without
a sign between them. -/
inductive Exponent : List Char → Prop where
  | nil : Exponent []
  | unsigned {e : Char} {ds : List Char} (he : e = 'e' ∨ e = 'E') (h : Digits ds) :
      Exponent (e :: ds)
  | signed {e sign : Char} {ds : List Char} (he : e = 'e' ∨ e = 'E')
      (hs : sign = '+' ∨ sign = '-') (h : Digits ds) : Exponent (e :: sign :: ds)

/-- The numeral can be written as this literal. -/
inductive Spelled : Numeral → List Char → Prop where
  | integer (i : Int) : Spelled (integer i) (toString i).toList
  | real {sign fraction exponent : List Char} (n : Nat) (hs : sign = [] ∨ sign = ['-'])
      (hf : Fraction fraction) (he : Exponent exponent)
      (h : fraction ++ exponent ≠ [] ∨ (sign = ['-'] ∧ n = 0)) :
      Spelled (real (String.ofList (sign ++ (Nat.toDigits 10 n ++ (fraction ++ exponent)))))
        (sign ++ (Nat.toDigits 10 n ++ (fraction ++ exponent)))

/-! ### Whole parts -/

/-- A digit is the decimal digit of a number below ten. -/
theorem toDigits_of_isDigit {d : Char} (h : d.isDigit = true) :
    ∃ n < 10, Nat.toDigits 10 n = [d] := by
  obtain ⟨hlow, hhigh⟩ := Char.isDigit_iff_toNat.mp h
  have h9 : '9'.toNat = '0'.toNat + 9 := rfl
  have hd : ∀ k < 10, Nat.toDigits 10 k = [Char.ofNat ('0'.toNat + k)] := by decide
  refine ⟨d.toNat - '0'.toNat, by omega, ?_⟩
  rw [hd _ (by omega), Nat.add_sub_cancel' hlow, Char.ofNat_toNat]

/-- Digits behind the digits of a positive number make the digits of another. -/
theorem toDigits_append {n : Nat} (hn : 0 < n) {ds : List Char}
    (h : ∀ d ∈ ds, d.isDigit = true) : ∃ m, Nat.toDigits 10 n ++ ds = Nat.toDigits 10 m := by
  induction ds generalizing n with
  | nil => exact ⟨n, List.append_nil _⟩
  | cons d ds ih =>
      obtain ⟨hd, hds⟩ := List.forall_mem_cons.mp h
      obtain ⟨k, hk, hkd⟩ := toDigits_of_isDigit hd
      obtain ⟨m, hm⟩ := ih (n := 10 * n + k) (by omega) hds
      refine ⟨m, ?_⟩
      calc Nat.toDigits 10 n ++ d :: ds
          = (Nat.toDigits 10 n ++ Nat.toDigits 10 k) ++ ds := by simp [hkd]
        _ = Nat.toDigits 10 (10 * n + k) ++ ds := by
            rw [Nat.toDigits_append_toDigits (by decide) hn hk]
        _ = Nat.toDigits 10 m := hm

/-- Digits without a leading zero are the decimal digits of some number. -/
theorem eq_toDigits {ds : List Char} (h : Digits ds) (h0 : ds.head? ≠ some '0') :
    ∃ n, ds = Nat.toDigits 10 n := by
  match ds with
  | [] => exact absurd rfl h.1
  | d :: ds =>
      obtain ⟨hd, hds⟩ := List.forall_mem_cons.mp h.2
      obtain ⟨n, -, hn⟩ := toDigits_of_isDigit hd
      have hpos : 0 < n := by
        refine Nat.pos_of_ne_zero fun hz => h0 ?_
        subst hz
        rw [← List.singleton_inj.mp hn]
        rfl
      obtain ⟨m, hm⟩ := toDigits_append hpos hds
      exact ⟨m, by simpa [hn] using hm⟩

theorem head?_toDigits_ne {n : Nat} (h : 0 < n) : (Nat.toDigits 10 n).head? ≠ some '0' := by
  induction n using Nat.strongRecOn with
  | ind n ih =>
      by_cases hn : n < 10
      · have hdigit : ∀ n < 10, 0 < n → (Nat.toDigits 10 n).head? ≠ some '0' := by decide
        exact hdigit n hn h
      · rw [Nat.toDigits_of_base_le (by decide) (by omega), List.head?_append,
          List.head?_eq_some_head Nat.toDigits_ne_nil, Option.some_or,
          ← List.head?_eq_some_head]
        exact ih (n / 10) (by omega) (by omega)

theorem isDigits_iff {ds : List Char} : isDigits ds = true ↔ Digits ds := by
  simp [isDigits, Digits]

theorem isWhole_iff {ds : List Char} : isWhole ds = true ↔ ∃ n, ds = Nat.toDigits 10 n := by
  rw [isWhole, Bool.or_eq_true, Bool.and_eq_true, decide_eq_true_iff, isDigits_iff, bne_iff_ne]
  constructor
  · rintro (rfl | ⟨hd, h0⟩)
    · exact ⟨0, rfl⟩
    · exact eq_toDigits hd h0
  · rintro ⟨n, rfl⟩
    rcases Nat.eq_zero_or_pos n with rfl | hn
    · exact .inl rfl
    · exact .inr ⟨⟨Nat.toDigits_ne_nil, fun d =>
        Nat.isDigit_of_mem_toDigits (by decide) (by decide)⟩, head?_toDigits_ne hn⟩

/-! ### Fractions and exponents -/

theorem exponent_signed_iff {e sign : Char} {ds : List Char} (hs : sign = '+' ∨ sign = '-') :
    Exponent (e :: sign :: ds) ↔ (e = 'e' ∨ e = 'E') ∧ Digits ds := by
  constructor
  · intro h
    cases h with
    | unsigned he hd =>
        have hdigit := hd.2 sign List.mem_cons_self
        rcases hs with rfl | rfl <;> exact absurd hdigit (by decide)
    | signed he _ hd => exact ⟨he, hd⟩
  · rintro ⟨he, hd⟩
    exact .signed he hs hd

theorem isExponent_iff {cs : List Char} : isExponent cs = true ↔ Exponent cs := by
  unfold isExponent
  split
  case h_1 => exact ⟨fun _ => .nil, fun _ => rfl⟩
  case h_2 e ds => simp [exponent_signed_iff, isDigits_iff]
  case h_3 e ds => simp [exponent_signed_iff, isDigits_iff]
  case h_4 e ds hplus hminus =>
    rw [Bool.and_eq_true, Bool.or_eq_true, decide_eq_true_iff, decide_eq_true_iff, isDigits_iff]
    constructor
    · rintro ⟨he, hd⟩
      exact .unsigned he hd
    · intro h
      cases h with
      | unsigned he hd => exact ⟨he, hd⟩
      | signed _ hs _ =>
          rcases hs with rfl | rfl
          · exact (hplus _ rfl).elim
          · exact (hminus _ rfl).elim

/-- Where a run of characters of one kind is followed by none of that kind, they are
cut there. -/
theorem takeWhile_dropWhile_append {p : Char → Bool} {run rest : List Char}
    (hrun : ∀ c ∈ run, p c = true) (hrest : ∀ c, rest.head? = some c → p c = false) :
    (run ++ rest).takeWhile p = run ∧ (run ++ rest).dropWhile p = rest := by
  have hstop : rest.takeWhile p = [] ∧ rest.dropWhile p = rest := by
    cases rest with
    | nil => exact ⟨rfl, rfl⟩
    | cons c rest => simp [hrest c rfl]
  rw [List.takeWhile_append_of_pos hrun, List.dropWhile_append_of_pos hrun]
  simp [hstop]

theorem Exponent.head? {cs : List Char} (h : Exponent cs) {c : Char} (hc : cs.head? = some c) :
    c = 'e' ∨ c = 'E' := by
  cases h with
  | nil => cases hc
  | unsigned he _ =>
      cases hc
      exact he
  | signed he _ _ =>
      cases hc
      exact he

/-- What follows the digits of a whole part does not go on with a digit. -/
theorem head?_append_not_digit {fraction exponent : List Char} (hf : Fraction fraction)
    (he : Exponent exponent) {c : Char} (hc : (fraction ++ exponent).head? = some c) :
    c.isDigit = false := by
  cases hf with
  | nil => rcases he.head? hc with rfl | rfl <;> rfl
  | point _ =>
      cases hc
      rfl

theorem isTail_iff {cs : List Char} :
    isTail cs = true ↔
      ∃ fraction exponent, Fraction fraction ∧ Exponent exponent ∧ cs = fraction ++ exponent := by
  unfold isTail
  split
  case h_1 cs =>
    rw [Bool.and_eq_true, isDigits_iff, isExponent_iff]
    constructor
    · rintro ⟨hd, he⟩
      exact ⟨_, _, .point hd, he, by simp⟩
    · rintro ⟨fraction, exponent, hf, he, h⟩
      cases hf with
      | nil =>
          rw [List.nil_append] at h
          subst h
          exact absurd (he.head? rfl) (by decide)
      | @point ds hd =>
          obtain ⟨-, rfl⟩ := List.cons.inj h
          obtain ⟨htake, hdrop⟩ := @takeWhile_dropWhile_append _ ds exponent hd.2 fun c hc =>
            head?_append_not_digit .nil he hc
          exact ⟨htake.symm ▸ hd, hdrop.symm ▸ he⟩
  case h_2 cs hpoint =>
    rw [isExponent_iff]
    constructor
    · exact fun he => ⟨[], _, .nil, he, rfl⟩
    · rintro ⟨fraction, exponent, hf, he, rfl⟩
      cases hf with
      | nil => exact he
      | point _ => exact (hpoint _ rfl).elim

/-! ### Literals -/

def signOf (negative : Bool) : List Char :=
  if negative then ['-'] else []

/-- The numeral whose literal has these parts. -/
def ofParts (negative : Bool) (n : Nat) (tail : List Char) : Numeral :=
  if tail = [] ∧ ¬(negative = true ∧ n = 0) then integer (if negative then -(n : Int) else n)
  else real (String.ofList (signOf negative ++ (Nat.toDigits 10 n ++ tail)))

/-- The literal is cut into these parts. -/
inductive Cut : Numeral → List Char → Prop where
  | parts (negative : Bool) (n : Nat) {fraction exponent : List Char} (hf : Fraction fraction)
      (he : Exponent exponent) :
      Cut (ofParts negative n (fraction ++ exponent))
        (signOf negative ++ (Nat.toDigits 10 n ++ (fraction ++ exponent)))

theorem toList_toString_natCast (n : Nat) : (toString (n : Int)).toList = Nat.toDigits 10 n := by
  rw [Int.toString_eq_repr, Int.repr_eq_if, if_pos (Int.natCast_nonneg n), Int.toNat_natCast,
    Nat.toList_repr]

theorem toList_toString_neg {n : Nat} (h : n ≠ 0) :
    (toString (-(n : Int))).toList = '-' :: Nat.toDigits 10 n := by
  rw [Int.toString_eq_repr, Int.repr_eq_if, if_neg (by omega), Int.neg_neg, Int.toNat_natCast,
    String.toList_append, Nat.toList_repr]
  rfl

theorem Cut.spelled {n : Numeral} {cs : List Char} (h : Cut n cs) : Spelled n cs := by
  obtain ⟨negative, n, hf, he⟩ := h
  rw [ofParts]
  split
  case isTrue hinteger =>
    rw [hinteger.1, List.append_nil]
    cases negative with
    | false =>
        have h := Spelled.integer n
        rwa [toList_toString_natCast] at h
    | true =>
        have hn : n ≠ 0 := fun hn => hinteger.2 ⟨rfl, hn⟩
        have h := Spelled.integer (-(n : Int))
        rwa [toList_toString_neg hn] at h
  case isFalse hreal =>
    refine .real n ?_ hf he ?_
    · cases negative with
      | false => exact .inl rfl
      | true => exact .inr rfl
    · rcases Decidable.em (negative = true ∧ n = 0) with ⟨rfl, hn⟩ | hnegative
      · exact .inr ⟨rfl, hn⟩
      · exact .inl fun htail => hreal ⟨htail, hnegative⟩

theorem Spelled.cut {n : Numeral} {cs : List Char} (h : Spelled n cs) : Cut n cs := by
  cases h with
  | integer i =>
      rcases Int.lt_or_le i 0 with hi | hi
      · obtain ⟨n, rfl⟩ : ∃ n : Nat, i = -(n : Int) := ⟨i.natAbs, by omega⟩
        have hn : n ≠ 0 := by omega
        rw [toList_toString_neg hn]
        simpa [ofParts, signOf, hn] using Cut.parts true n .nil .nil
      · obtain ⟨n, rfl⟩ := Int.eq_ofNat_of_zero_le hi
        rw [toList_toString_natCast]
        simpa [ofParts, signOf] using Cut.parts false n .nil .nil
  | @real sign fraction exponent n hs hf he h =>
      rcases hs with rfl | rfl
      · have hne : fraction ++ exponent ≠ [] := h.resolve_right (by simp)
        have hcut := Cut.parts false n hf he
        rwa [ofParts, if_neg (fun hinteger => hne hinteger.1)] at hcut
      · have hcut := Cut.parts true n hf he
        rwa [ofParts, if_neg ?_] at hcut
        rintro ⟨htail, hn⟩
        rcases h with hne | ⟨-, h0⟩
        · exact hne htail
        · exact hn ⟨rfl, h0⟩

theorem isDigit_of_mem_toDigits {n : Nat} : ∀ d ∈ Nat.toDigits 10 n, d.isDigit = true :=
  fun _ => Nat.isDigit_of_mem_toDigits (by decide) (by decide)

theorem ofUnsigned?_append (negative : Bool) (n : Nat) {fraction exponent : List Char}
    (hf : Fraction fraction) (he : Exponent exponent) :
    ofUnsigned? negative (Nat.toDigits 10 n ++ (fraction ++ exponent)) =
      some (ofParts negative n (fraction ++ exponent)) := by
  obtain ⟨htake, hdrop⟩ := takeWhile_dropWhile_append isDigit_of_mem_toDigits fun c =>
    head?_append_not_digit hf he
  have hwhole : isWhole (Nat.toDigits 10 n) = true := isWhole_iff.mpr ⟨n, rfl⟩
  have htail : isTail (fraction ++ exponent) = true := isTail_iff.mpr ⟨_, _, hf, he, rfl⟩
  rw [ofUnsigned?, htake, hdrop, Nat.ofDigitChars_ten_toDigits, hwhole, htail]
  cases negative <;> simp [ofParts, signOf, apply_ite some]

theorem cut_of_ofUnsigned? {negative : Bool} {cs : List Char} {n : Numeral}
    (h : ofUnsigned? negative cs = some n) : Cut n (signOf negative ++ cs) := by
  have hparts : isWhole (cs.takeWhile Char.isDigit) = true ∧
      isTail (cs.dropWhile Char.isDigit) = true := by
    rw [ofUnsigned?] at h
    split at h
    · next hparts => exact Bool.and_eq_true_iff.mp hparts
    · cases h
  obtain ⟨k, hk⟩ := isWhole_iff.mp hparts.1
  obtain ⟨fraction, exponent, hf, he, htail⟩ := isTail_iff.mp hparts.2
  rw [← List.takeWhile_append_dropWhile (p := Char.isDigit) (l := cs), hk, htail] at h ⊢
  rw [ofUnsigned?_append negative k hf he] at h
  cases h
  exact .parts negative k hf he

theorem ofLiteral?_of_cut {n : Numeral} {cs : List Char} (h : Cut n cs) :
    ofLiteral? cs = some n := by
  obtain ⟨negative, n, hf, he⟩ := h
  cases negative with
  | true => exact ofUnsigned?_append true n hf he
  | false =>
      obtain ⟨d, ds, hds⟩ := List.exists_cons_of_ne_nil (Nat.toDigits_ne_nil (n := n) (b := 10))
      have hd : d.isDigit = true := isDigit_of_mem_toDigits d (hds ▸ List.mem_cons_self)
      rw [← ofUnsigned?_append false n hf he, hds, ofLiteral?]
      · rfl
      · rintro cs h
        obtain ⟨rfl, -⟩ := List.cons.inj h
        exact absurd hd (by decide)

/-- What the reader takes a literal for is what can be written as it. -/
theorem ofLiteral?_eq_some_iff {cs : List Char} {n : Numeral} :
    ofLiteral? cs = some n ↔ Spelled n cs := by
  constructor
  · intro h
    refine Cut.spelled ?_
    unfold ofLiteral? at h
    split at h
    · exact cut_of_ofUnsigned? h
    · exact cut_of_ofUnsigned? h
  · exact fun h => ofLiteral?_of_cut h.cut

/-! ### The characters of a literal -/

theorem isPart_of_isDigit {c : Char} (h : c.isDigit = true) : isPart c = true := by
  simp [isPart, h]

theorem Fraction.isPart {cs : List Char} (h : Fraction cs) : ∀ c ∈ cs, isPart c = true := by
  cases h with
  | nil => simp
  | point hd => exact List.forall_mem_cons.mpr ⟨rfl, fun c hc => isPart_of_isDigit (hd.2 c hc)⟩

theorem Exponent.isPart {cs : List Char} (h : Exponent cs) : ∀ c ∈ cs, isPart c = true := by
  cases h with
  | nil => simp
  | unsigned he hd =>
      refine List.forall_mem_cons.mpr ⟨?_, fun c hc => isPart_of_isDigit (hd.2 c hc)⟩
      rcases he with rfl | rfl <;> rfl
  | signed he hs hd =>
      refine List.forall_mem_cons.mpr ⟨?_, List.forall_mem_cons.mpr ⟨?_, fun c hc =>
        isPart_of_isDigit (hd.2 c hc)⟩⟩
      · rcases he with rfl | rfl <;> rfl
      · rcases hs with rfl | rfl <;> rfl

/-- A literal begins with a digit or a minus sign, and has no characters but those of
literals. -/
theorem Spelled.eq_cons {n : Numeral} {cs : List Char} (h : Spelled n cs) :
    ∃ c rest, cs = c :: rest ∧ (c = '-' || c.isDigit) = true ∧ ∀ c ∈ rest, isPart c = true := by
  obtain ⟨negative, n, hf, he⟩ := h.cut
  obtain ⟨d, ds, hds⟩ := List.exists_cons_of_ne_nil (Nat.toDigits_ne_nil (n := n) (b := 10))
  obtain ⟨hd, hrest⟩ := List.forall_mem_cons.mp (hds ▸ isDigit_of_mem_toDigits (n := n))
  have htail : ∀ c ∈ _ ++ (_ ++ _), isPart c = true := List.forall_mem_append.mpr
    ⟨fun c hc => isPart_of_isDigit (hrest c hc), List.forall_mem_append.mpr ⟨hf.isPart, he.isPart⟩⟩
  rw [hds]
  cases negative with
  | true =>
      exact ⟨'-', _, rfl, rfl, List.forall_mem_cons.mpr ⟨isPart_of_isDigit hd, htail⟩⟩
  | false => exact ⟨d, _, rfl, by simp [hd], htail⟩

end WhileLang.Json.Numeral
