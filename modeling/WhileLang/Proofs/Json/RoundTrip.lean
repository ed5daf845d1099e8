import WhileLang.Environment.Lemmas
import WhileLang.Proofs.Json.Decoding

/-!
# Texts carry values

The JSON form that is written for a value is one of the forms that denote it, with its
fields in their declared order and nothing beside them, and there is nothing in it that
cannot be written. So its text is read as it, and reading takes it back to the value.
That two values never share a text does not even need the text to be within the levels
of the reader: the text determines the form, and the form denotes one value.
-/

namespace WhileLang

open Exchange

/-- Texts carry the valid values of a type. -/
structure Exchange.Faithful (α : Type) [Exchange α] (Valid : α → Prop) : Prop where
  decode?_encode : ∀ {a : α}, Valid a → (toJson a).depth ≤ nestingLimit →
    decode? (encode a) = some a
  encode_injective : ∀ {a b : α}, Valid a → Valid b → encode a = encode b → a = b

theorem Exchange.Follows.faithful {α : Type} [Exchange α] {Denoted : α → Json → Prop}
    {Valid : α → Prop} (h : Follows α Denoted) (hform : ∀ a, Valid a → Denoted a (toJson a))
    (hwritable : ∀ a, Valid a → (toJson a).Writable) : Faithful α Valid where
  decode?_encode := by
    intro a ha hdepth
    exact (h.accepts.decode?_eq_some_iff (hwritable a ha).spelled_write hdepth).mpr (hform a ha)
  encode_injective := by
    intro a b ha hb hab
    have hread := Json.read?_eq_some_iff.mpr (hwritable a ha).spelled_write
    have hread' := Json.read?_eq_some_iff.mpr (hwritable b hb).spelled_write
    rw [show (toJson a).write = (toJson b).write from hab, hread'] at hread
    have hsame := hform a ha
    rw [← Option.some.inj hread] at hsame
    exact h.accepts.unique hsame (hform b hb)

namespace Json

/-! ### Records as they are written -/

theorem ne_of_not_mem {fields : List (String × Json)} {name : String}
    (h : name ∉ fields.map Prod.fst) :
    ∀ m ∈ fields.map fun f => (Text.unicode f.1, f.2), m.1 ≠ .unicode name := by
  intro m hm hname
  obtain ⟨f, hf, rfl⟩ := List.mem_map.mp hm
  cases hname
  exact h (List.mem_map_of_mem hf)

/-- A record that is written as an object gives the fields it is written from. -/
theorem record_ofFields {fields : List (String × Json)} {names : List String}
    {values : List Json} (hnames : fields.map Prod.fst = names)
    (hvalues : fields.map Prod.snd = values) (h : names.Nodup) :
    Record names (ofFields fields) values := by
  subst hnames hvalues
  refine .object (fun m hm => ?_) ?_
  · obtain ⟨f, -, rfl⟩ := List.mem_map.mp hm
    simp
  · rw [List.forall₂_map_left_iff, List.forall₂_map_right_iff, List.forall₂_same]
    intro f hf
    obtain ⟨before, after, rfl⟩ := List.append_of_mem hf
    rw [List.map_append, List.map_cons, List.perm_middle.nodup_iff, List.nodup_cons,
      List.mem_append, not_or] at h
    rw [List.map_append, List.map_cons]
    exact .once f.2 (ne_of_not_mem h.1.1) (ne_of_not_mem h.1.2)

/-! ### Forms that can be written -/

theorem writable_null : null.Writable := by
  intro n hn
  cases hn with
  | tail _ hn => cases hn

theorem writable_bool (b : Bool) : (bool b).Writable := by
  intro n hn
  cases hn with
  | tail _ hn => cases hn

theorem writable_ofString (s : String) : (ofString s).Writable := by
  intro n hn
  cases hn with
  | tail _ hn => cases hn

theorem writable_ofInt (i : Int) : (ofInt i).Writable := by
  intro n hn
  cases hn with
  | head => exact .integer i
  | tail _ hn => cases hn

theorem writable_moreMembers {ms : List (Text × Json)} (h : ∀ m ∈ ms, m.2.Writable)
    {n : Numeral} (hn : .number n ∈ moreMembers ms) : n.Spelled n.literal.toList := by
  induction ms with
  | nil => simp [moreMembers] at hn
  | cons m ms ih =>
      obtain ⟨name, v⟩ := m
      obtain ⟨hv, hms⟩ := List.forall_mem_cons.mp h
      simp only [moreMembers, List.mem_cons, List.mem_append, reduceCtorEq, false_or] at hn
      exact hn.elim (hv n) (ih hms)

theorem writable_object {members : List (Text × Json)} (h : ∀ m ∈ members, m.2.Writable) :
    (object members).Writable := by
  intro n hn
  cases members with
  | nil => simp [tokens] at hn
  | cons m ms =>
      obtain ⟨name, v⟩ := m
      obtain ⟨hv, hms⟩ := List.forall_mem_cons.mp h
      simp only [tokens, List.mem_cons, List.mem_append, reduceCtorEq, false_or] at hn
      exact hn.elim (hv n) (writable_moreMembers hms)

theorem writable_ofFields {fields : List (String × Json)} (h : ∀ f ∈ fields, f.2.Writable) :
    (ofFields fields).Writable :=
  writable_object fun m hm => by
    obtain ⟨f, hf, rfl⟩ := List.mem_map.mp hm
    exact h f hf

theorem writable_tagged (tag : String) {payload : Json} (h : payload.Writable) :
    (tagged tag payload).Writable :=
  writable_ofFields (by simpa using h)

end Json

variable {ν : Type} [Arithmetic ν]

/-! ### Terms -/

theorem Operator.denotedBy_toJson (op : Operator) : op.DenotedBy (toJson op) :=
  Json.IsName.bare

theorem Value.denotedBy_toJson (v : Value ν) : v.DenotedBy (toJson v) := by
  cases v with
  | number n => exact .number n
  | boolean b => exact .boolean b

theorem Term.denotedBy_toJson (t : Term ν) : t.DenotedBy t.toJson := by
  induction t with
  | number n => exact .number n
  | boolean b => exact .boolean b
  | var name => exact .var name
  | binary op left right ihl ihr =>
      exact .binary (Json.record_ofFields rfl rfl (by decide)) op.denotedBy_toJson ihl ihr
  | assign name expression ih => exact .assign (Json.record_ofFields rfl rfl (by decide)) ih
  | doNothing => exact .doNothing .bare
  | ifElse condition consequence alternative ihc iht ihe =>
      exact .ifElse (Json.record_ofFields rfl rfl (by decide)) ihc iht ihe
  | sequence first second ihf ihs =>
      exact .sequence (Json.record_ofFields rfl rfl (by decide)) ihf ihs
  | whileLoop condition body ihc ihb =>
      exact .whileLoop (Json.record_ofFields rfl rfl (by decide)) ihc ihb

theorem Value.writable_toJson (v : Value ν) : (toJson v).Writable := by
  cases v with
  | number n => exact Json.writable_tagged _ (Json.writable_ofInt _)
  | boolean b => exact Json.writable_tagged _ (Json.writable_bool b)

theorem Term.writable_toJson (t : Term ν) : t.toJson.Writable := by
  induction t with
  | number n => exact Json.writable_tagged _ (Json.writable_ofInt _)
  | boolean b => exact Json.writable_tagged _ (Json.writable_bool b)
  | var name => exact Json.writable_tagged _ (Json.writable_ofString name)
  | binary op left right ihl ihr =>
      refine Json.writable_tagged _ (Json.writable_ofFields ?_)
      simpa using ⟨Json.writable_ofString op.name, ihl, ihr⟩
  | assign name expression ih =>
      refine Json.writable_tagged _ (Json.writable_ofFields ?_)
      simpa using ⟨Json.writable_ofString name, ih⟩
  | doNothing => exact Json.writable_ofString _
  | ifElse condition consequence alternative ihc iht ihe =>
      refine Json.writable_tagged _ (Json.writable_ofFields ?_)
      simpa using ⟨ihc, iht, ihe⟩
  | sequence first second ihf ihs =>
      refine Json.writable_tagged _ (Json.writable_ofFields ?_)
      simpa using ⟨ihf, ihs⟩
  | whileLoop condition body ihc ihb =>
      refine Json.writable_tagged _ (Json.writable_ofFields ?_)
      simpa using ⟨ihc, ihb⟩

/-! ### Environments and states -/

namespace Environment

theorem denotedBy_toJson (env : Environment ν) : env.DenotedBy (toJson env) := by
  have hmembers : List.Forall₂ (fun (m : Json.Text × Json) (b : Name × Value ν) =>
      m.1 = .unicode b.1 ∧ b.2.DenotedBy m.2)
      ((env.toList.map fun b => (b.1, Exchange.toJson b.2)).map fun f => (.unicode f.1, f.2))
      env.toList := by
    rw [List.forall₂_map_left_iff, List.forall₂_map_left_iff, List.forall₂_same]
    exact fun b _ => ⟨rfl, b.2.denotedBy_toJson⟩
  have h := DenotedBy.members hmembers
  rwa [ofList_toList] at h

theorem writable_toJson (env : Environment ν) : (toJson env).Writable := by
  refine Json.writable_ofFields fun f hf => ?_
  obtain ⟨b, -, rfl⟩ := List.mem_map.mp hf
  exact b.2.writable_toJson

end Environment

theorem State.denotedBy_toJson (s : State ν) : s.DenotedBy (toJson s) :=
  .record (Json.record_ofFields rfl rfl (by decide)) s.statement.denotedBy_toJson
    s.environment.denotedBy_toJson

theorem State.writable_toJson (s : State ν) : (toJson s).Writable := by
  refine Json.writable_ofFields ?_
  simpa using ⟨s.statement.writable_toJson, s.environment.writable_toJson⟩

/-! ### Settings -/

namespace Config

/-- A step limit is a counter of 64 bits. -/
def Valid (c : Config) : Prop :=
  ∀ n, c.stepLimit = some n → n < UInt64.size

theorem denotedBy_toJson {c : Config} (h : c.Valid) : c.DenotedBy (toJson c) := by
  obtain ⟨stepLimit, traceFormat⟩ := c
  have hrecord : Json.Record ["step_limit", "trace_format"]
      (toJson (Config.mk stepLimit traceFormat)) [.ofLimit stepLimit, toJson traceFormat] :=
    Json.record_ofFields rfl rfl (by decide)
  refine .record (Json.fields_map_some_iff.mpr hrecord) (.given ?_) (.given .bare)
  cases stepLimit with
  | none => exact .none
  | some n => exact .some (h n rfl)

theorem writable_toJson (c : Config) : (toJson c).Writable := by
  obtain ⟨stepLimit, traceFormat⟩ := c
  have hlimit : (Json.ofLimit stepLimit).Writable := by
    cases stepLimit with
    | none => exact Json.writable_null
    | some n => exact Json.writable_ofInt n
  refine Json.writable_ofFields ?_
  simpa using ⟨hlimit, Json.writable_ofString traceFormat.word⟩

end Config

/-- Values of each type that is exchanged are read back from their texts, and no two of
them have the same text. -/
theorem texts_are_faithful {ν : Type} [Arithmetic ν] :
    Faithful (Term ν) (fun _ => True) ∧ Faithful (Value ν) (fun _ => True) ∧
      Faithful (Environment ν) (fun _ => True) ∧ Faithful (State ν) (fun _ => True) ∧
      Faithful Config Config.Valid :=
  ⟨Term.follows.faithful (fun t _ => t.denotedBy_toJson) fun t _ => t.writable_toJson,
    Value.follows.faithful (fun v _ => v.denotedBy_toJson) fun v _ => v.writable_toJson,
    Environment.follows.faithful (fun env _ => env.denotedBy_toJson) fun env _ =>
      env.writable_toJson,
    State.follows.faithful (fun s _ => s.denotedBy_toJson) fun s _ => s.writable_toJson,
    Config.follows.faithful (fun _ => Config.denotedBy_toJson) fun c _ => c.writable_toJson⟩

/-- Names of all kinds, the extremes of the numbers, the highest step limit. -/
theorem texts_are_faithful_to_odd_names :
    let odd : Name := "\"\\\x00\n"
    let s : State Int64 :=
      ⟨.assign "" (.binary .add (.var odd) (.number Int64.minValue)),
        (Environment.empty.insert odd (.number Int64.maxValue)).insert "ß π" (.boolean true)⟩
    let c : Config := ⟨some (UInt64.size - 1), .json⟩
    decode? (encode s) = some s ∧ decode? (encode c) = some c := by
  intro odd s c
  obtain ⟨-, -, -, hstate, hconfig⟩ := texts_are_faithful (ν := Int64)
  have hc : c.Valid := by
    rintro n ⟨⟩
    decide
  exact ⟨hstate.decode?_encode trivial (by decide), hconfig.decode?_encode hc (by decide)⟩

end WhileLang
