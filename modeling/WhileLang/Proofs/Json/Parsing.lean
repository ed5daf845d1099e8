import WhileLang.Json.Reader
import WhileLang.Json.Writer

/-!
# A row of tokens is one value or none

The reader's state says what is open, and that is enough to say which tokens it has
taken: those of the containers begun, and of what has come since (`Reader.HasTaken`).
One more token extends that row, so a reader that is done with a value has taken the
tokens of that value and no others.

The other way round, the tokens of a value take the reader from where a value has to
come to where one is complete, whatever is around it and whatever follows. That one
is an induction over the value, in which an array or an object is taken along the rest
of its elements.
-/

namespace WhileLang.Json

/-- Induction over a value where elements and members come as parts of it. -/
@[elab_as_elim]
theorem induction {motive : Json → Prop} (null : motive null) (bool : ∀ b, motive (bool b))
    (number : ∀ n, motive (number n)) (string : ∀ t, motive (string t))
    (array : ∀ elements, (∀ v ∈ elements, motive v) → motive (array elements))
    (object : ∀ members, (∀ m ∈ members, motive m.2) → motive (object members)) (v : Json) :
    motive v :=
  v.rec null bool number string array object
    (fun _ h => absurd h (by simp))
    (fun _ _ hv hvs => List.forall_mem_cons.mpr ⟨hv, hvs⟩)
    (fun _ h => absurd h (by simp))
    (fun _ _ hm hms => List.forall_mem_cons.mpr ⟨hm, hms⟩)
    (fun _ _ hv => hv)

/-- The tokens of elements that are followed by another one. -/
def begunElements (vs : List Json) : List Token :=
  vs.flatMap fun v => v.tokens ++ [.comma]

/-- The tokens of members that are followed by another one. -/
def begunMembers (ms : List (Text × Json)) : List Token :=
  ms.flatMap fun m => .string m.1 :: .colon :: (m.2.tokens ++ [.comma])

theorem moreElements_concat (vs : List Json) (v : Json) :
    moreElements (vs ++ [v]) = .comma :: (begunElements vs ++ (v.tokens ++ [.closeBracket])) := by
  induction vs with
  | nil => simp [moreElements, begunElements]
  | cons w vs ih => simp [moreElements, begunElements, ih]

theorem tokens_array_concat (vs : List Json) (v : Json) :
    (array (vs ++ [v])).tokens =
      .openBracket :: (begunElements vs ++ (v.tokens ++ [.closeBracket])) := by
  cases vs with
  | nil => simp [tokens, moreElements, begunElements]
  | cons w vs => simp [tokens, moreElements_concat, begunElements]

theorem moreMembers_concat (ms : List (Text × Json)) (name : Text) (v : Json) :
    moreMembers (ms ++ [(name, v)]) =
      .comma :: (begunMembers ms ++ .string name :: .colon :: (v.tokens ++ [.closeBrace])) := by
  induction ms with
  | nil => simp [moreMembers, begunMembers]
  | cons m ms ih => simp [moreMembers, begunMembers, ih]

theorem tokens_object_concat (ms : List (Text × Json)) (name : Text) (v : Json) :
    (object (ms ++ [(name, v)])).tokens =
      .openBrace :: (begunMembers ms ++ .string name :: .colon :: (v.tokens ++ [.closeBrace])) := by
  cases ms with
  | nil => simp [tokens, moreMembers, begunMembers]
  | cons m ms => simp [tokens, moreMembers_concat, begunMembers]

namespace Frame

/-- The tokens that began a container and have brought it to where its next value has
to come. -/
def tokens : Frame → List Token
  | array elements => .openBracket :: begunElements elements.reverse
  | object members name => .openBrace :: (begunMembers members.reverse ++ [.string name, .colon])

end Frame

namespace Reader

/-- The tokens of all containers begun, the innermost first. -/
def begun (outer : List Frame) : List Token :=
  outer.reverse.flatMap Frame.tokens

@[simp]
theorem begun_nil : begun [] = [] := rfl

@[simp]
theorem begun_cons (f : Frame) (outer : List Frame) :
    begun (f :: outer) = begun outer ++ f.tokens := by
  simp [begun]

/-- The reader that started at a value is here after these tokens. -/
inductive HasTaken : Reader → List Token → Prop where
  | value (outer : List Frame) : HasTaken (value outer) (begun outer)
  | firstElement (outer : List Frame) :
      HasTaken (firstElement outer) (begun outer ++ [.openBracket])
  | afterElement (v : Json) (vs : List Json) (outer : List Frame) :
      HasTaken (afterElement (v :: vs) outer) (begun (.array vs :: outer) ++ v.tokens)
  | firstMember (outer : List Frame) : HasTaken (firstMember outer) (begun outer ++ [.openBrace])
  | nextMember (members : List (Text × Json)) (outer : List Frame) :
      HasTaken (nextMember members outer)
        (begun outer ++ .openBrace :: begunMembers members.reverse)
  | afterName (members : List (Text × Json)) (name : Text) (outer : List Frame) :
      HasTaken (afterName members name outer)
        (begun outer ++ .openBrace :: (begunMembers members.reverse ++ [.string name]))
  | afterMember (name : Text) (v : Json) (members : List (Text × Json)) (outer : List Frame) :
      HasTaken (afterMember ((name, v) :: members) outer)
        (begun (.object members name :: outer) ++ v.tokens)
  | done (v : Json) : HasTaken (done v) v.tokens

theorem HasTaken.complete (v : Json) (outer : List Frame) :
    (complete v outer).HasTaken (begun outer ++ v.tokens) := by
  match outer with
  | [] => exact .done v
  | .array vs :: outer => exact .afterElement v vs outer
  | .object members name :: outer => exact .afterMember name v members outer

theorem HasTaken.begin? {outer : List Frame} {t : Token} {r : Reader}
    (h : begin? outer t = some r) : r.HasTaken (begun outer ++ [t]) := by
  cases t <;> cases h
  case null => exact .complete .null outer
  case bool b => exact .complete (.bool b) outer
  case number n => exact .complete (.number n) outer
  case string t => exact .complete (.string t) outer
  case openBracket => exact .firstElement outer
  case openBrace => exact .firstMember outer

/-- One more token extends the row. -/
theorem HasTaken.step {r r' : Reader} {t : Token} {ts : List Token} (hr : r.HasTaken ts)
    (h : r.step? t = some r') : r'.HasTaken (ts ++ [t]) := by
  cases hr with
  | value outer => exact .begin? h
  | firstElement outer =>
      by_cases ht : t = .closeBracket
      · subst ht
        cases h
        simpa [tokens] using HasTaken.complete (.array []) outer
      · -- a first element is begun as if it had to come
        have hbegin : Reader.begin? (.array [] :: outer) t = some r' := by
          cases t <;> first | exact absurd rfl ht | exact h
        simpa [Frame.tokens, begunElements] using HasTaken.begin? hbegin
  | afterElement v vs outer =>
      cases t with
      | comma =>
          cases h
          simpa [Frame.tokens, begunElements] using HasTaken.value (.array (v :: vs) :: outer)
      | closeBracket =>
          cases h
          simpa [Frame.tokens, tokens_array_concat] using
            HasTaken.complete (.array (v :: vs).reverse) outer
      | _ => cases h
  | firstMember outer =>
      cases t with
      | closeBrace =>
          cases h
          simpa [tokens] using HasTaken.complete (.object []) outer
      | string name =>
          cases h
          simpa [begunMembers] using HasTaken.afterName [] name outer
      | _ => cases h
  | nextMember members outer =>
      cases t with
      | string name =>
          cases h
          simpa using HasTaken.afterName members name outer
      | _ => cases h
  | afterName members name outer =>
      cases t with
      | colon =>
          cases h
          simpa [Frame.tokens] using HasTaken.value (.object members name :: outer)
      | _ => cases h
  | afterMember name v members outer =>
      cases t with
      | comma =>
          cases h
          simpa [Frame.tokens, begunMembers] using
            HasTaken.nextMember ((name, v) :: members) outer
      | closeBrace =>
          cases h
          simpa [Frame.tokens, tokens_object_concat] using
            HasTaken.complete (.object ((name, v) :: members).reverse) outer
      | _ => cases h
  | done v => cases t <;> cases h

theorem HasTaken.run {ts ts' : List Token} {r r' : Reader} (hr : r.HasTaken ts)
    (h : ts'.foldlM step? r = some r') : r'.HasTaken (ts ++ ts') := by
  induction ts' generalizing ts r with
  | nil =>
      cases h
      simpa using hr
  | cons t ts' ih =>
      rw [List.foldlM_cons] at h
      obtain ⟨next, hnext, h⟩ := Option.bind_eq_some_iff.mp h
      simpa using ih (hr.step hnext) h

/-- The tokens of this value complete it, whatever is around it and follows it. -/
def Reads (v : Json) : Prop :=
  ∀ (outer : List Frame) (rest : List Token),
    (v.tokens ++ rest).foldlM step? (value outer) = rest.foldlM step? (complete v outer)

theorem foldlM_moreElements {vs : List Json} (hvs : ∀ v ∈ vs, Reads v) (rest : List Token)
    (elements : List Json) (outer : List Frame) :
    (moreElements vs ++ rest).foldlM step? (afterElement elements outer) =
      rest.foldlM step? (complete (.array (elements.reverse ++ vs)) outer) := by
  induction vs generalizing elements with
  | nil => simp [moreElements, step?]
  | cons v vs ih =>
      obtain ⟨hv, hvs⟩ := List.forall_mem_cons.mp hvs
      calc (moreElements (v :: vs) ++ rest).foldlM step? (afterElement elements outer)
          = (v.tokens ++ (moreElements vs ++ rest)).foldlM step?
              (value (.array elements :: outer)) := by simp [moreElements, step?]
        _ = (moreElements vs ++ rest).foldlM step? (afterElement (v :: elements) outer) :=
            hv ..
        _ = rest.foldlM step? (complete (.array ((v :: elements).reverse ++ vs)) outer) :=
            ih hvs ..
        _ = rest.foldlM step? (complete (.array (elements.reverse ++ v :: vs)) outer) := by simp

theorem foldlM_moreMembers {ms : List (Text × Json)} (hms : ∀ m ∈ ms, Reads m.2)
    (rest : List Token) (members : List (Text × Json)) (outer : List Frame) :
    (moreMembers ms ++ rest).foldlM step? (afterMember members outer) =
      rest.foldlM step? (complete (.object (members.reverse ++ ms)) outer) := by
  induction ms generalizing members with
  | nil => simp [moreMembers, step?]
  | cons m ms ih =>
      obtain ⟨name, v⟩ := m
      obtain ⟨hv, hms⟩ := List.forall_mem_cons.mp hms
      calc (moreMembers ((name, v) :: ms) ++ rest).foldlM step? (afterMember members outer)
          = (v.tokens ++ (moreMembers ms ++ rest)).foldlM step?
              (value (.object members name :: outer)) := by simp [moreMembers, step?]
        _ = (moreMembers ms ++ rest).foldlM step? (afterMember ((name, v) :: members) outer) :=
            hv ..
        _ = rest.foldlM step? (complete (.object (((name, v) :: members).reverse ++ ms)) outer) :=
            ih hms ..
        _ = rest.foldlM step? (complete (.object (members.reverse ++ (name, v) :: ms)) outer) := by
            simp

/-- An element may come right behind the opening bracket. -/
theorem foldlM_firstElement (v : Json) (outer : List Frame) (rest : List Token) :
    (v.tokens ++ rest).foldlM step? (firstElement outer) =
      (v.tokens ++ rest).foldlM step? (value (.array [] :: outer)) := by
  match v with
  | .null | .bool _ | .number _ | .string _ | .array [] | .array (_ :: _) | .object []
  | .object (_ :: _) => rfl

theorem reads (v : Json) : Reads v := by
  -- an array goes on along the rest of its elements, an object along its members
  induction v using induction with
  | null | bool _ | number _ | string _ => exact fun _ _ => rfl
  | array elements ih =>
      intro outer rest
      cases elements with
      | nil => rfl
      | cons v vs =>
          obtain ⟨hv, hvs⟩ := List.forall_mem_cons.mp ih
          calc ((array (v :: vs)).tokens ++ rest).foldlM step? (value outer)
              = (v.tokens ++ (moreElements vs ++ rest)).foldlM step? (firstElement outer) := by
                simp [tokens, step?, begin?]
            _ = (v.tokens ++ (moreElements vs ++ rest)).foldlM step?
                  (value (.array [] :: outer)) := foldlM_firstElement ..
            _ = (moreElements vs ++ rest).foldlM step? (afterElement [v] outer) := hv ..
            _ = rest.foldlM step? (complete (.array (v :: vs)) outer) :=
                foldlM_moreElements hvs rest [v] outer
  | object members ih =>
      intro outer rest
      cases members with
      | nil => rfl
      | cons m ms =>
          obtain ⟨name, v⟩ := m
          obtain ⟨hv, hms⟩ := List.forall_mem_cons.mp ih
          calc ((object ((name, v) :: ms)).tokens ++ rest).foldlM step? (value outer)
              = (v.tokens ++ (moreMembers ms ++ rest)).foldlM step?
                  (value (.object [] name :: outer)) := by simp [tokens, step?, begin?]
            _ = (moreMembers ms ++ rest).foldlM step? (afterMember [(name, v)] outer) := hv ..
            _ = rest.foldlM step? (complete (.object ((name, v) :: ms)) outer) :=
                foldlM_moreMembers hms rest [(name, v)] outer

end Reader

theorem ofTokens?_eq_some_iff {ts : List Token} {v : Json} :
    ofTokens? ts = some v ↔ ts = v.tokens := by
  constructor
  · intro h
    obtain ⟨r, hr, hv⟩ := Option.bind_eq_some_iff.mp h
    have htaken : r.HasTaken ts := by simpa using (Reader.HasTaken.value []).run hr
    cases r <;> cases hv
    cases htaken
    rfl
  · rintro rfl
    have h := Reader.reads v [] []
    rw [List.append_nil] at h
    rw [ofTokens?, h]
    rfl

end WhileLang.Json
