import WhileLang.Proofs.Json.RoundTrip
import WhileLang.Proofs.Snapshots

/-!
# Reading puts environments into normal form

Many objects give the same environment. Their members come in any order, a name may be
given more than once, and by its escapes a name may be written in a way that hides that
it has been given before. Nothing of this is left after reading: the names are compared as
text, a later member overrides an earlier one, and what is kept is the one list of bindings
that is in order. So what is written again depends on the last binding of each name
alone, and is its own normal form.

A member that is overridden still has to be a binding. And since the values of an
environment are flat, the levels that a reader counts play no part: what denotes an
environment is nested two deep at most.
-/

namespace WhileLang

open Exchange

variable {ν : Type} [Arithmetic ν]

namespace Environment

/-- The bindings that the members of an object stand for, one for each and in their order. -/
def BindingsOf (members : List (Name × Json)) (bindings : List (Name × Value ν)) : Prop :=
  List.Forall₂ (fun m b => m.1 = b.1 ∧ b.2.DenotedBy m.2) members bindings

theorem exists_bindingsOf_iff {members : List (Name × Json)} :
    (∃ bindings : List (Name × Value ν), BindingsOf members bindings) ↔
      ∀ m ∈ members, ∃ v : Value ν, v.DenotedBy m.2 := by
  induction members with
  | nil => exact ⟨fun _ => nofun, fun _ => ⟨[], .nil⟩⟩
  | cons m members ih =>
      rw [List.forall_mem_cons, ← ih]
      constructor
      · intro h
        obtain ⟨_, h⟩ := h
        obtain ⟨b, bindings, hb, hbindings, -⟩ := List.forall₂_cons_left_iff.mp h
        exact ⟨⟨b.2, hb.2⟩, bindings, hbindings⟩
      · intro h
        obtain ⟨⟨v, hv⟩, bindings, hbindings⟩ := h
        exact ⟨(m.1, v) :: bindings, .cons ⟨rfl, hv⟩ hbindings⟩

/-! ## What denotes an environment -/

theorem denotedBy_ofFields_iff {env : Environment ν} {members : List (Name × Json)} :
    env.DenotedBy (.ofFields members) ↔
      ∃ bindings, BindingsOf members bindings ∧ env = ofList bindings := by
  constructor
  · intro h
    rw [Json.ofFields] at h
    obtain @⟨_, bindings, h⟩ := h
    refine ⟨bindings, (List.forall₂_map_left_iff.mp h).imp fun m b hb => ?_, rfl⟩
    exact ⟨Json.Text.unicode.inj hb.1, hb.2⟩
  · intro h
    obtain ⟨bindings, h, rfl⟩ := h
    refine .members (List.forall₂_map_left_iff.mpr (h.imp fun m b hb => ?_))
    exact ⟨congrArg _ hb.1, hb.2⟩

/-- It is an object, and its names are text. -/
theorem DenotedBy.exists_eq_ofFields {env : Environment ν} {v : Json} (h : env.DenotedBy v) :
    ∃ members, v = .ofFields members := by
  obtain ⟨h⟩ := h
  induction h with
  | nil => exact ⟨[], rfl⟩
  | @cons m b _ _ hb _ ih =>
      obtain ⟨members, hmembers⟩ := ih
      obtain ⟨name, w⟩ := m
      obtain rfl : name = .unicode b.1 := hb.1
      refine ⟨(b.1, w) :: members, ?_⟩
      rw [Json.ofFields, List.map_cons, Json.object.inj hmembers]

/-! ## Texts -/

/-- No text is nested too deep to be read as the environment that it denotes. -/
theorem decode?_eq_some_iff_denotedBy {v : Json} {text : String} {env : Environment ν}
    (h : v.Spelled text) : decode? text = some env ↔ env.DenotedBy v := by
  constructor
  · intro hread
    rw [decode?_of_spelled h] at hread
    exact follows.sound hread
  · intro henv
    have hdepth : v.depth ≤ nestingLimit := Nat.le_trans henv.depth_le (by decide)
    exact (follows.accepts.decode?_eq_some_iff h hdepth).mpr henv

theorem decode?_ofFields_iff {members : List (Name × Json)} {text : String}
    {env : Environment ν} (h : (Json.ofFields members).Spelled text) :
    decode? text = some env ↔ ∃ bindings, BindingsOf members bindings ∧ env = ofList bindings :=
  (decode?_eq_some_iff_denotedBy h).trans denotedBy_ofFields_iff

theorem isSome_decode?_iff {members : List (Name × Json)} {text : String}
    (h : (Json.ofFields members).Spelled text) :
    (decode? text : Option (Environment ν)).isSome = true ↔
      ∀ m ∈ members, ∃ v : Value ν, v.DenotedBy m.2 := by
  rw [Option.isSome_iff_exists, ← exists_bindingsOf_iff]
  simp only [decode?_ofFields_iff h]
  constructor
  · intro hread
    obtain ⟨_, bindings, hbindings, -⟩ := hread
    exact ⟨bindings, hbindings⟩
  · intro hbindings
    obtain ⟨bindings, hbindings⟩ := hbindings
    exact ⟨_, bindings, hbindings, rfl⟩

theorem decode?_encode (env : Environment ν) : decode? (encode env) = some env :=
  (decode?_eq_some_iff_denotedBy env.writable_toJson.spelled_write).mpr env.denotedBy_toJson

theorem exists_ascending_spelled_encode (env : Environment ν) :
    ∃ members, (Json.ofFields members).Spelled (encode env) ∧
      (members.map Prod.fst).Pairwise Name.Precedes ∧ (members.map Prod.fst).Nodup := by
  refine ⟨env.toList.map fun b => (b.1, toJson b.2), env.writable_toJson.spelled_write, ?_⟩
  rw [List.map_map]
  exact ⟨env.names_ascending, env.names_nodup⟩

theorem encode_eq_iff {env env' : Environment ν} :
    encode env = encode env' ↔ ∀ x, env.get? x = env'.get? x := by
  constructor
  · intro h x
    have hread := decode?_encode env
    rw [h, decode?_encode] at hread
    rw [Option.some.inj hread]
  · intro h
    rw [Environment.ext h]

/-- Reading an environment from a text and writing it again brings the text into normal form.
An object is read if and only if each of its members denotes a value, and then it is read
as these bindings collected in the order of the text, so that the last one holds of those for
one name. What is written for it has its names in order and each of them once, and is left
as it is by reading and writing it again. Two objects have the same normal form if and
only if they make the same last binding for every name. No other text is read, be it that
of another JSON value or that of an object with a name that is no text. -/
theorem reading_normalizes :
    (∀ (members : List (Name × Json)) (text : String), (Json.ofFields members).Spelled text →
      ((decode? text : Option (Environment ν)).isSome = true ↔
        ∀ m ∈ members, ∃ v : Value ν, v.DenotedBy m.2) ∧
      ∀ env : Environment ν, decode? text = some env →
        (∃ bindings, BindingsOf members bindings ∧ env = ofList bindings ∧
          ∀ x, env.get? x = lastWrite? bindings x) ∧
        (∃ written, (Json.ofFields written).Spelled (encode env) ∧
          (written.map Prod.fst).Pairwise Name.Precedes ∧ (written.map Prod.fst).Nodup) ∧
        (decode? (encode env) : Option (Environment ν)).map encode = some (encode env)) ∧
    (∀ (members members' : List (Name × Json)) (text text' : String) (env env' : Environment ν)
      (bindings bindings' : List (Name × Value ν)),
      (Json.ofFields members).Spelled text → (Json.ofFields members').Spelled text' →
      decode? text = some env → decode? text' = some env' →
      BindingsOf members bindings → BindingsOf members' bindings' →
      (encode env = encode env' ↔ ∀ x, lastWrite? bindings x = lastWrite? bindings' x)) ∧
    ∀ (v : Json) (text : String), (∀ members, v ≠ .ofFields members) → v.Spelled text →
      (decode? text : Option (Environment ν)) = none := by
  refine ⟨fun members text htext => ⟨isSome_decode?_iff htext, fun env henv => ?_⟩, ?_, ?_⟩
  · obtain ⟨bindings, hbindings, rfl⟩ := (decode?_ofFields_iff htext).mp henv
    refine ⟨⟨bindings, hbindings, rfl, get?_ofList bindings⟩, exists_ascending_spelled_encode _, ?_⟩
    rw [decode?_encode, Option.map_some]
  · intro members members' text text' env env' bindings bindings' htext htext' henv henv' hb hb'
    have hmade := (decode?_ofFields_iff htext).mpr ⟨bindings, hb, rfl⟩
    have hmade' := (decode?_ofFields_iff htext').mpr ⟨bindings', hb', rfl⟩
    obtain rfl : ofList bindings = env := Option.some.inj (hmade.symm.trans henv)
    obtain rfl : ofList bindings' = env' := Option.some.inj (hmade'.symm.trans henv')
    rw [encode_eq_iff]
    simp only [get?_ofList]
  · intro v text hno htext
    refine Option.eq_none_iff_forall_ne_some.mpr fun env henv => ?_
    obtain ⟨members, rfl⟩ := ((decode?_eq_some_iff_denotedBy htext).mp henv).exists_eq_ofFields
    exact hno members rfl

/-- The first name is spelled by an escape and is overridden by the third member; the object
without it has the same normal form. Were it bound to nothing that is a value, the object
would not be read, and neither is an array. -/
theorem escaped_name_is_overridden :
    let two : Json := .tagged "Number" (.ofInt 2)
    let yes : Json := .tagged "Boolean" (.bool true)
    let text := "\x7b\"\\u0061\":\x7b\"Number\":1\x7d, \"b\":\x7b\"Boolean\":true\x7d," ++
      "\"a\":\x7b\"Number\":2\x7d\x7d"
    let text' := "\x7b\"b\":\x7b\"Boolean\":true\x7d,\"a\":\x7b\"Number\":2\x7d\x7d"
    let unread := "\x7b\"\\u0061\":null,\"a\":\x7b\"Number\":2\x7d\x7d"
    let bindings : List (Name × Value Int64) :=
      [("a", .number 1), ("b", .boolean true), ("a", .number 2)]
    let bindings' : List (Name × Value Int64) := [("b", .boolean true), ("a", .number 2)]
    ((Json.ofFields [("a", .tagged "Number" (.ofInt 1)), ("b", yes), ("a", two)]).Spelled text ∧
      (Json.ofFields [("b", yes), ("a", two)]).Spelled text' ∧
      (Json.ofFields [("a", .null), ("a", two)]).Spelled unread ∧ (Json.array []).Spelled "[]") ∧
    (∃ env, decode? text = some env ∧ env = ofList bindings ∧
      (decode? (encode env) : Option (Environment Int64)).map encode = some (encode env) ∧
      ∃ env', decode? text' = some env' ∧ env' = ofList bindings' ∧ encode env = encode env') ∧
    (decode? unread : Option (Environment Int64)).isSome = false ∧
    (decode? "[]" : Option (Environment Int64)) = none := by
  intro two yes text text' unread bindings bindings'
  have hspelled : (Json.ofFields [("a", .tagged "Number" (.ofInt 1)), ("b", yes),
      ("a", two)]).Spelled text ∧ (Json.ofFields [("b", yes), ("a", two)]).Spelled text' ∧
      (Json.ofFields [("a", .null), ("a", two)]).Spelled unread ∧ (Json.array []).Spelled "[]" := by
    refine ⟨?_, ?_, ?_, ?_⟩
    all_goals
      simp only [Json.Spelled, two, yes, text, text', unread, Json.tagged, Json.ofFields,
        Json.ofInt, List.map, Json.tokens, Json.moreMembers, List.cons_append, List.nil_append]
      repeat refine .cons_of_next? rfl ?_
      exact .nil (by simp)
  obtain ⟨htext, htext', hunread, harray⟩ := hspelled
  have hb : BindingsOf [("a", .tagged "Number" (.ofInt 1)), ("b", yes), ("a", two)] bindings :=
    .cons ⟨rfl, .number 1⟩ (.cons ⟨rfl, .boolean true⟩ (.cons ⟨rfl, .number 2⟩ .nil))
  have hb' : BindingsOf [("b", yes), ("a", two)] bindings' :=
    .cons ⟨rfl, .boolean true⟩ (.cons ⟨rfl, .number 2⟩ .nil)
  have hread := (decode?_ofFields_iff htext).mpr ⟨bindings, hb, rfl⟩
  have hread' := (decode?_ofFields_iff htext').mpr ⟨bindings', hb', rfl⟩
  have hlast : ∀ x, lastWrite? bindings x = lastWrite? bindings' x := by
    intro x
    have hsame : ofList bindings = ofList bindings' := rfl
    rw [← get?_ofList, hsame, get?_ofList]
  obtain ⟨hobjects, hpairs, hothers⟩ := reading_normalizes (ν := Int64)
  obtain ⟨-, -, hagain⟩ := (hobjects _ _ htext).2 _ hread
  refine ⟨⟨htext, htext', hunread, harray⟩, ⟨_, hread, rfl, hagain, _, hread', rfl, ?_⟩, ?_, ?_⟩
  · exact (hpairs _ _ _ _ _ _ _ _ htext htext' hread hread' hb hb').mpr hlast
  · rw [Bool.eq_false_iff, Ne, (hobjects _ _ hunread).1]
    intro hall
    obtain ⟨v, hv⟩ := hall ("a", .null) List.mem_cons_self
    cases hv
  · refine hothers (.array []) "[]" (fun members h => ?_) harray
    rw [Json.ofFields] at h
    cases h

end Environment

end WhileLang
