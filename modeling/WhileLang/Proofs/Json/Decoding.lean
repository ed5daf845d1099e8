import WhileLang.Proofs.Json.Forms
import WhileLang.Proofs.Json.Spelling

/-!
# Reading accepts the forms and nothing else

For every type that is exchanged, the reader finds `a` in a JSON value only if the
value denotes `a` (`sound`), and finds it whenever the value denotes it and is nested
no deeper than the levels it may use (`complete`). The first is an induction along the
reader, the second one along the form; what makes them meet is that a term's payload
is one level below it and the fields of the payload one level below that.

With a text for the value this becomes what `decode?` accepts, and since a value with
enough levels is read as one thing, no value denotes two.
-/

namespace WhileLang

open Exchange

/-- The reader of a type finds what values denote by this relation. -/
structure Exchange.Follows (α : Type) [Exchange α] (Denoted : α → Json → Prop) : Prop where
  sound : ∀ {levels : Nat} {v : Json} {a : α}, ofJson? levels v = some a → Denoted a v
  complete : ∀ {levels : Nat} {v : Json} {a : α}, Denoted a v → v.depth ≤ levels →
    ofJson? levels v = some a

/-- A type of names alone is read by its table of names. -/
theorem Exchange.follows_isName {α : Type} [Exchange α] {name : α → String}
    {ofName? : String → Option α} (hname : ∀ {s : String} {a : α}, ofName? s = some a ↔ s = name a)
    (hread : ∀ (levels : Nat) (v : Json),
      (ofJson? levels v : Option α) = (v.bare? levels).bind ofName?) :
    Follows α fun a v => v.IsName (name a) where
  sound := by
    intro levels v a h
    rw [hread] at h
    obtain ⟨s, hs, h⟩ := Option.bind_eq_some_iff.mp h
    rw [hname.mp h] at hs
    exact .of_bare? hs
  complete := by
    intro levels v a h hdepth
    rw [hread, h.bare? hdepth]
    exact hname.mpr rfl

theorem Operator.follows : Follows Operator DenotedBy :=
  follows_isName ofName?_eq_some_iff fun _ _ => rfl

theorem TraceFormat.ofWord?_eq_some_iff {s : String} {format : TraceFormat} :
    ofWord? s = some format ↔ s = format.word := by
  constructor
  · intro h
    unfold ofWord? at h
    split at h <;> cases h <;> rfl
  · rintro rfl
    cases format <;> rfl

theorem TraceFormat.follows : Follows TraceFormat DenotedBy :=
  follows_isName ofWord?_eq_some_iff fun _ _ => rfl

/-! ### Values -/

section

variable {ν : Type} [Arithmetic ν]

namespace Json

theorem int?_eq_some_iff {v : Json} {i : Int} : v.int? = some i ↔ v = ofInt i := by
  constructor
  · intro h
    unfold int? at h
    split at h
    · cases h
      rfl
    · cases h
  · rintro rfl
    rfl

theorem text?_eq_some_iff {v : Json} {s : String} : v.text? = some s ↔ v = ofString s := by
  constructor
  · intro h
    unfold text? at h
    split at h
    · cases h
      rfl
    · cases h
  · rintro rfl
    rfl

theorem bool?_eq_some_iff {v : Json} {b : Bool} : v.bool? = some b ↔ v = bool b := by
  constructor
  · intro h
    unfold bool? at h
    split at h
    · cases h
      rfl
    · cases h
  · rintro rfl
    rfl

theorem numeric?_eq_some_iff {v : Json} {n : ν} :
    v.numeric? = some n ↔ v = ofInt (Arithmetic.toInt n) := by
  rw [numeric?, Option.bind_eq_bind, Option.bind_eq_some_iff]
  constructor
  · rintro ⟨i, hi, h⟩
    rw [Arithmetic.ofInt?_eq_some_iff.mp h]
    exact int?_eq_some_iff.mp hi
  · intro h
    exact ⟨_, int?_eq_some_iff.mpr h, Arithmetic.ofInt?_toInt n⟩

end Json

theorem Value.follows : Follows (Value ν) DenotedBy where
  sound := by
    intro levels v x h
    simp only [ofJson?] at h
    split at h
    · next levels tag payload =>
      split at h
      · obtain ⟨n, hn, rfl⟩ := Option.map_eq_some_iff.mp h
        rw [Json.numeric?_eq_some_iff.mp hn]
        exact .number n
      · obtain ⟨b, hb, rfl⟩ := Option.map_eq_some_iff.mp h
        rw [Json.bool?_eq_some_iff.mp hb]
        exact .boolean b
      · cases h
    · cases h
  complete := by
    intro levels v x h hdepth
    cases h with
    | number n =>
        cases levels with
        | zero => simp at hdepth
        | succ levels => simp [ofJson?, Json.tagged, Json.ofFields, Json.numeric?_eq_some_iff]
    | boolean b =>
        cases levels with
        | zero => simp at hdepth
        | succ levels => simp [ofJson?, Json.tagged, Json.ofFields, Json.bool?]

/-! ### Terms -/

/-- A record below a tag takes up two levels, and what is left is enough for its
fields. -/
theorem Json.Record.levels {names : List String} {tag : String} {payload : Json}
    {values : List Json} (h : Record names payload values) {levels : Nat}
    (hdepth : (tagged tag payload).depth ≤ levels) :
    ∃ rest, levels = rest + 2 ∧ ∀ v ∈ values, v.depth ≤ rest := by
  rw [depth_tagged] at hdepth
  have hpos := h.depth_pos
  refine ⟨levels - 2, by omega, fun v hv => ?_⟩
  have hv := h.depth_lt hv
  omega

namespace Term

theorem denotedBy_of_ofLeaf? {tag : String} {payload : Json} {t : Term ν}
    (h : ofLeaf? tag payload = some t) : t.DenotedBy (.tagged tag payload) := by
  unfold ofLeaf? at h
  split at h
  · obtain ⟨n, hn, rfl⟩ := Option.map_eq_some_iff.mp h
    rw [Json.numeric?_eq_some_iff.mp hn]
    exact .number n
  · obtain ⟨b, hb, rfl⟩ := Option.map_eq_some_iff.mp h
    rw [Json.bool?_eq_some_iff.mp hb]
    exact .boolean b
  · obtain ⟨name, hname, rfl⟩ := Option.map_eq_some_iff.mp h
    rw [Json.text?_eq_some_iff.mp hname]
    exact .var name
  · cases h
    exact .doNothing .tagged
  · cases h

theorem denotedBy_of_ofJson? {levels : Nat} {v : Json} {t : Term ν}
    (h : ofJson? levels v = some t) : t.DenotedBy v := by
  -- cases 4 to 8 are the alternatives with parts, in the order of the reader
  fun_induction @ofJson? ν _ levels v generalizing t with
  | case1 =>
    cases h
    exact .doNothing .bare
  | case2 => cases h
  | case3 tag payload => exact denotedBy_of_ofLeaf? h
  | case4 levels payload ih =>
    obtain ⟨fields, hfields, h⟩ := Option.bind_eq_some_iff.mp h
    have hrecord := Json.required?_eq_some_iff.mp hfields
    split at h
    · obtain ⟨op, hop, h⟩ := Option.bind_eq_some_iff.mp h
      obtain ⟨left, hleft, h⟩ := Option.bind_eq_some_iff.mp h
      obtain ⟨right, hright, h⟩ := Option.bind_eq_some_iff.mp h
      cases h
      exact .binary hrecord (Operator.follows.sound hop) (ih _ hleft) (ih _ hright)
    · cases h
  | case5 levels payload ih =>
    obtain ⟨fields, hfields, h⟩ := Option.bind_eq_some_iff.mp h
    have hrecord := Json.required?_eq_some_iff.mp hfields
    split at h
    · obtain ⟨name, hname, h⟩ := Option.bind_eq_some_iff.mp h
      obtain ⟨expression, hexpression, h⟩ := Option.bind_eq_some_iff.mp h
      cases h
      rw [Json.text?_eq_some_iff.mp hname] at hrecord
      exact .assign hrecord (ih _ hexpression)
    · cases h
  | case6 levels payload ih =>
    obtain ⟨fields, hfields, h⟩ := Option.bind_eq_some_iff.mp h
    have hrecord := Json.required?_eq_some_iff.mp hfields
    split at h
    · obtain ⟨condition, hcondition, h⟩ := Option.bind_eq_some_iff.mp h
      obtain ⟨consequence, hconsequence, h⟩ := Option.bind_eq_some_iff.mp h
      obtain ⟨alternative, halternative, h⟩ := Option.bind_eq_some_iff.mp h
      cases h
      exact .ifElse hrecord (ih _ hcondition) (ih _ hconsequence) (ih _ halternative)
    · cases h
  | case7 levels payload ih =>
    obtain ⟨fields, hfields, h⟩ := Option.bind_eq_some_iff.mp h
    have hrecord := Json.required?_eq_some_iff.mp hfields
    split at h
    · obtain ⟨first, hfirst, h⟩ := Option.bind_eq_some_iff.mp h
      obtain ⟨second, hsecond, h⟩ := Option.bind_eq_some_iff.mp h
      cases h
      exact .sequence hrecord (ih _ hfirst) (ih _ hsecond)
    · cases h
  | case8 levels payload ih =>
    obtain ⟨fields, hfields, h⟩ := Option.bind_eq_some_iff.mp h
    have hrecord := Json.required?_eq_some_iff.mp hfields
    split at h
    · obtain ⟨condition, hcondition, h⟩ := Option.bind_eq_some_iff.mp h
      obtain ⟨body, hbody, h⟩ := Option.bind_eq_some_iff.mp h
      cases h
      exact .whileLoop hrecord (ih _ hcondition) (ih _ hbody)
    · cases h
  | case9 => exact denotedBy_of_ofLeaf? h
  | case10 => cases h

/-- An alternative without parts is entered with one level. -/
theorem ofJson?_tagged_of_leaf {levels : Nat} {tag : String} {payload : Json} {t : Term ν}
    (hdepth : (Json.tagged tag payload).depth ≤ levels) (h : ofLeaf? tag payload = some t) :
    ofJson? levels (.tagged tag payload) = some t := by
  rw [Json.depth_tagged] at hdepth
  rw [Json.tagged_eq]
  match levels with
  | 1 => exact h
  | levels + 2 =>
      rw [ofJson?]
      · exact h
      all_goals
        rintro rfl
        cases h

theorem ofJson?_of_denotedBy {levels : Nat} {v : Json} {t : Term ν} (h : t.DenotedBy v)
    (hdepth : v.depth ≤ levels) : ofJson? levels v = some t := by
  induction h generalizing levels with
  | number n =>
      refine ofJson?_tagged_of_leaf hdepth ?_
      rw [ofLeaf?, Json.numeric?_eq_some_iff.mpr rfl, Option.map_some]
  | boolean b => exact ofJson?_tagged_of_leaf hdepth rfl
  | var name => exact ofJson?_tagged_of_leaf hdepth rfl
  | doNothing h =>
      cases h with
      | bare => simp [Json.ofString, ofJson?]
      | tagged => exact ofJson?_tagged_of_leaf hdepth rfl
  -- the tag and its payload take a level each, the rest is for the parts
  | binary h ho _ _ ihl ihr =>
      obtain ⟨levels, rfl, hfields⟩ := h.levels hdepth
      rw [Json.tagged_eq, ofJson?, Json.required?_eq_some_iff.mpr h]
      simp [Operator.follows.complete ho (hfields _ (by simp)), ihl (hfields _ (by simp)),
        ihr (hfields _ (by simp))]
  | assign h _ ih =>
      obtain ⟨levels, rfl, hfields⟩ := h.levels hdepth
      rw [Json.tagged_eq, ofJson?, Json.required?_eq_some_iff.mpr h]
      simp [Json.text?_eq_some_iff.mpr rfl, ih (hfields _ (by simp))]
  | ifElse h _ _ _ ihc iht ihe =>
      obtain ⟨levels, rfl, hfields⟩ := h.levels hdepth
      rw [Json.tagged_eq, ofJson?, Json.required?_eq_some_iff.mpr h]
      simp [ihc (hfields _ (by simp)), iht (hfields _ (by simp)), ihe (hfields _ (by simp))]
  | sequence h _ _ ihf ihs =>
      obtain ⟨levels, rfl, hfields⟩ := h.levels hdepth
      rw [Json.tagged_eq, ofJson?, Json.required?_eq_some_iff.mpr h]
      simp [ihf (hfields _ (by simp)), ihs (hfields _ (by simp))]
  | whileLoop h _ _ ihc ihb =>
      obtain ⟨levels, rfl, hfields⟩ := h.levels hdepth
      rw [Json.tagged_eq, ofJson?, Json.required?_eq_some_iff.mpr h]
      simp [ihc (hfields _ (by simp)), ihb (hfields _ (by simp))]

theorem follows : Follows (Term ν) DenotedBy where
  sound := denotedBy_of_ofJson?
  complete := ofJson?_of_denotedBy

end Term

/-! ### Environments and states -/

namespace Environment

theorem bindingOfMember?_eq_some_iff {levels : Nat} {m : Json.Text × Json} {b : Name × Value ν} :
    bindingOfMember? levels m = some b ↔
      m.1 = .unicode b.1 ∧ ofJson? levels m.2 = some b.2 := by
  obtain ⟨name, payload⟩ := m
  obtain ⟨x, v⟩ := b
  cases name with
  | unicode name => simp [bindingOfMember?, and_comm]
  | illFormed => simp [bindingOfMember?]

theorem follows : Follows (Environment ν) DenotedBy where
  sound := by
    intro levels v env h
    simp only [ofJson?] at h
    split at h
    · obtain ⟨bindings, hbindings, rfl⟩ := Option.map_eq_some_iff.mp h
      refine .members ((Json.mapM_eq_some_iff.mp hbindings).imp fun m b hb => ?_)
      obtain ⟨hname, hvalue⟩ := bindingOfMember?_eq_some_iff.mp hb
      exact ⟨hname, Value.follows.sound hvalue⟩
    · cases h
  complete := by
    intro levels v env h hdepth
    obtain @⟨members, bindings, h⟩ := h
    cases levels with
    | zero => simp [Json.depth] at hdepth
    | succ levels =>
        have hfit : ∀ m ∈ members, m.2.depth ≤ levels := fun m hm => by
          have hm := Json.depth_lt_object hm
          omega
        have hbindings : members.mapM (bindingOfMember? levels) = some bindings := by
          refine Json.mapM_eq_some_iff.mpr
            (((List.forall₂_and_left _ _).mpr ⟨hfit, h⟩).imp fun m b hb => ?_)
          obtain ⟨hm, hname, hvalue⟩ := hb
          exact bindingOfMember?_eq_some_iff.mpr ⟨hname, Value.follows.complete hvalue hm⟩
        simp [ofJson?, hbindings]

end Environment

theorem State.follows : Follows (State ν) DenotedBy where
  sound := by
    intro levels v s h
    cases levels with
    | zero => cases h
    | succ levels =>
        obtain ⟨fields, hfields, h⟩ := Option.bind_eq_some_iff.mp h
        have hrecord := Json.required?_eq_some_iff.mp hfields
        split at h
        · obtain ⟨statement, hstatement, h⟩ := Option.bind_eq_some_iff.mp h
          obtain ⟨environment, henvironment, h⟩ := Option.bind_eq_some_iff.mp h
          cases h
          exact .record hrecord (Term.follows.sound hstatement)
            (Environment.follows.sound henvironment)
        · cases h
  complete := by
    intro levels v s h hdepth
    obtain ⟨h, hs, he⟩ := h
    have hpos := h.depth_pos
    cases levels with
    | zero => omega
    | succ levels =>
        have hfit : ∀ {w : Json}, w ∈ [_, _] → w.depth ≤ levels := fun hw => by
          have hw := h.depth_lt hw
          omega
        have hs := Term.follows.complete hs (hfit (by simp))
        have he := Environment.follows.complete he (hfit (by simp))
        exact Option.bind_eq_some_iff.mpr ⟨_, Json.required?_eq_some_iff.mpr h,
          Option.bind_eq_some_iff.mpr ⟨_, hs, Option.bind_eq_some_iff.mpr ⟨_, he, rfl⟩⟩⟩

end

/-! ### Settings -/

theorem Json.count?_eq_some_iff {v : Json} {n : Nat} :
    v.count? = some n ↔ v = ofInt n ∧ n < UInt64.size := by
  rw [count?, Option.bind_eq_bind, Option.bind_eq_some_iff]
  constructor
  · rintro ⟨i, hi, h⟩
    split at h
    · next hcount =>
      cases h
      rw [Int.toNat_of_nonneg hcount.1]
      exact ⟨int?_eq_some_iff.mp hi, hcount.2⟩
    · cases h
  · rintro ⟨rfl, hn⟩
    exact ⟨n, rfl, if_pos ⟨Int.natCast_nonneg n, hn⟩⟩

theorem Json.limit?_eq_some_iff {v : Json} {limit : Option Nat} :
    v.limit? = some limit ↔ LimitDenotedBy limit v := by
  constructor
  · intro h
    unfold limit? at h
    split at h
    · cases h
      exact .none
    · obtain ⟨n, hn, rfl⟩ := Option.map_eq_some_iff.mp h
      obtain ⟨rfl, hcount⟩ := count?_eq_some_iff.mp hn
      exact .some hcount
  · intro h
    cases h with
    | none => rfl
    | @some n hn =>
        have hcount : (ofInt n).limit? = (ofInt n).count?.map some := rfl
        rw [hcount, count?_eq_some_iff.mpr ⟨rfl, hn⟩, Option.map_some]

/-- What is read for a field that may be left out. -/
def orDefault? {α : Type} (default : α) (read? : Json → Option α) : Option Json → Option α
  | none => some default
  | some v => read? v

theorem OrDefault.of_orDefault? {α : Type} {default a : α} {read? : Json → Option α}
    {Denoted : α → Json → Prop} {field : Option Json}
    (hread : ∀ v, field = some v → read? v = some a → Denoted a v)
    (h : orDefault? default read? field = some a) : OrDefault default Denoted a field := by
  cases field with
  | none =>
      cases h
      exact .absent
  | some v => exact .given (hread v rfl h)

theorem OrDefault.orDefault? {α : Type} {default a : α} {read? : Json → Option α}
    {Denoted : α → Json → Prop} {field : Option Json}
    (hread : ∀ v, field = some v → Denoted a v → read? v = some a)
    (h : OrDefault default Denoted a field) : orDefault? default read? field = some a := by
  cases h with
  | absent => rfl
  | given h => exact hread _ rfl h

namespace Config

/-- Settings are read field by field, the step limit first. -/
theorem ofJson?_of_fields {levels : Nat} {v : Json} {l f : Option Json}
    (h : v.fields? ["step_limit", "trace_format"] = some [l, f]) :
    (ofJson? (levels + 1) v : Option Config) =
      (orDefault? Config.default.stepLimit Json.limit? l).bind fun stepLimit =>
        (orDefault? Config.default.traceFormat (ofJson? levels) f).bind fun traceFormat =>
          some ⟨stepLimit, traceFormat⟩ := by
  simp only [ofJson?, h]
  cases l <;> cases f <;> rfl

theorem follows : Follows Config DenotedBy where
  sound := by
    intro levels v c h
    cases levels with
    | zero => cases h
    | succ levels =>
        obtain ⟨fields, hfields, hsplit⟩ := Option.bind_eq_some_iff.mp h
        split at hsplit
        · rw [ofJson?_of_fields hfields] at h
          obtain ⟨stepLimit, hlimit, h⟩ := Option.bind_eq_some_iff.mp h
          obtain ⟨traceFormat, hformat, h⟩ := Option.bind_eq_some_iff.mp h
          cases h
          exact .record (Json.fields?_eq_some_iff.mp hfields)
            (.of_orDefault? (fun _ _ => Json.limit?_eq_some_iff.mp) hlimit)
            (.of_orDefault? (fun _ _ => TraceFormat.follows.sound) hformat)
        · cases hsplit
  complete := by
    intro levels v c h hdepth
    obtain ⟨h, hl, hf⟩ := h
    have hpos := h.depth_pos
    cases levels with
    | zero => omega
    | succ levels =>
        refine (ofJson?_of_fields (Json.fields?_eq_some_iff.mpr h)).trans
          (Option.bind_eq_some_iff.mpr ⟨_, hl.orDefault? fun _ _ => Json.limit?_eq_some_iff.mpr,
            Option.bind_eq_some_iff.mpr ⟨_, hf.orDefault? fun w hw hdenoted => ?_, rfl⟩⟩)
        have hw := h.depth_lt (w := w) (by simp [hw])
        exact TraceFormat.follows.complete hdenoted (by omega)

end Config

/-! ### Texts -/

/-- The texts of a type are read as what they denote. -/
structure Exchange.Accepts (α : Type) [Exchange α] (Denoted : α → Json → Prop) : Prop where
  decode?_eq_some_iff : ∀ {v : Json} {text : String} {a : α}, v.Spelled text →
    v.depth ≤ nestingLimit → (decode? text = some a ↔ Denoted a v)
  unique : ∀ {v : Json} {a b : α}, Denoted a v → Denoted b v → a = b
  decode?_eq_none : ∀ {text : String}, (∀ v : Json, ¬v.Spelled text) →
    (decode? text : Option α) = none

theorem Exchange.decode?_of_spelled {α : Type} [Exchange α] {v : Json} {text : String}
    (h : v.Spelled text) : decode? text = (ofJson? nestingLimit v : Option α) := by
  rw [decode?, Json.read?_eq_some_iff.mpr h, Option.bind_eq_bind, Option.bind_some]

theorem Exchange.Follows.accepts {α : Type} [Exchange α] {Denoted : α → Json → Prop}
    (h : Follows α Denoted) : Accepts α Denoted where
  decode?_eq_some_iff := by
    intro v text a htext hdepth
    rw [decode?_of_spelled htext]
    exact ⟨h.sound, fun ha => h.complete ha hdepth⟩
  unique := by
    intro v a b ha hb
    have ha := h.complete ha (Nat.le_refl _)
    have hb := h.complete hb (Nat.le_refl _)
    exact Option.some.inj (ha.symm.trans hb)
  decode?_eq_none := by
    intro text hnone
    have hread : Json.read? text = none :=
      Option.eq_none_iff_forall_ne_some.mpr fun v hv => hnone v (Json.read?_eq_some_iff.mp hv)
    rw [decode?, hread]
    rfl

/-- A JSON value within the levels, written in any way, is read as a term, a state or
settings exactly if it denotes them, and it denotes at most one of each. What is not
the writing of any JSON value is not read at all. -/
theorem decoding_accepts_exactly_what_denotes {ν : Type} [Arithmetic ν] :
    Accepts (Term ν) Term.DenotedBy ∧ Accepts (State ν) State.DenotedBy ∧
      Accepts Config Config.DenotedBy :=
  ⟨Term.follows.accepts, State.follows.accepts, Config.follows.accepts⟩

/-- Fields out of their order and as an array, a name that no record declares and that
is given twice, an escape, blanks: a sequence all the same. -/
theorem decoding_accepts_loosely_written_sequence :
    let v : Json := .tagged "Sequence" (.object
      [(.unicode "second", .ofString "DoNothing"), (.unicode "", .number (.real "1e3")),
        (.unicode "first", .tagged "Assign" (.array
          [.ofString "x", .tagged "Number" (.ofInt (-5))])), (.unicode "", .null)])
    let text := "\x7b\"Sequence\": \x7b\"second\":\"DoNothing\",\"\":1e3," ++
      "\"first\":\x7b\"Assign\":[\"\\u0078\",\x7b\"Number\":-5\x7d]\x7d,\"\":null\x7d\x7d"
    v.Spelled text ∧ v.depth ≤ nestingLimit ∧
      decode? text = some (Term.sequence (.assign "x" (.number (-5 : Int64))) .doNothing) := by
  intro v text
  -- the tokens are found one by one, each in what the ones before it have left
  have hspelled : v.Spelled text := by
    simp only [Json.Spelled, v, text, Json.tagged, Json.ofFields, Json.ofString, Json.ofInt,
      List.map, Json.tokens, Json.moreMembers, Json.moreElements, List.cons_append,
      List.nil_append]
    repeat refine .cons_of_next? rfl ?_
    exact .nil (by simp)
  have hdepth : v.depth ≤ nestingLimit := by decide
  have hdenoted : Term.DenotedBy (.sequence (.assign "x" (.number (-5 : Int64))) .doNothing) v :=
    .sequence (Json.required?_eq_some_iff.mp rfl)
      (.assign (Json.required?_eq_some_iff.mp rfl) (.number (-5))) (.doNothing .bare)
  obtain ⟨hterm, -⟩ := decoding_accepts_exactly_what_denotes (ν := Int64)
  exact ⟨hspelled, hdepth, (hterm.decode?_eq_some_iff hspelled hdepth).mpr hdenoted⟩

end WhileLang
