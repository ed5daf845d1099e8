import Mathlib.Data.List.Forall2
import WhileLang.Exchange.Config
import WhileLang.Exchange.State

/-!
# The forms of what is exchanged

What JSON values denote a term, a state or the settings is said here apart from the
reader: no levels are counted, and nothing is said about the order in which members
are looked at. An alternative is an object with its one name; a record is an array of
its fields or an object in which each of them occurs once, among whatever else.

A value denotes at most one thing and may be one of many that denote it.
-/

namespace WhileLang

namespace Json

/-! ### Nesting -/

mutual

/-- How many arrays and objects are open at the innermost place of a value. -/
def depth : Json → Nat
  | null | bool _ | number _ | string _ => 0
  | array elements => depthOfElements elements + 1
  | object members => depthOfMembers members + 1

def depthOfElements : List Json → Nat
  | [] => 0
  | v :: vs => max v.depth (depthOfElements vs)

def depthOfMembers : List (Text × Json) → Nat
  | [] => 0
  | (_, v) :: ms => max v.depth (depthOfMembers ms)

end

theorem depth_lt_array {v : Json} {elements : List Json} (h : v ∈ elements) :
    v.depth < (array elements).depth := by
  rw [depth, Nat.lt_succ_iff]
  induction elements with
  | nil => cases h
  | cons w vs ih =>
      rw [depthOfElements]
      rcases List.mem_cons.mp h with rfl | h
      · exact Nat.le_max_left ..
      · exact Nat.le_trans (ih h) (Nat.le_max_right ..)

theorem depth_lt_object {m : Text × Json} {members : List (Text × Json)} (h : m ∈ members) :
    m.2.depth < (object members).depth := by
  rw [depth, Nat.lt_succ_iff]
  induction members with
  | nil => cases h
  | cons m' ms ih =>
      rw [depthOfMembers]
      rcases List.mem_cons.mp h with rfl | h
      · exact Nat.le_max_left ..
      · exact Nat.le_trans (ih h) (Nat.le_max_right ..)

theorem depth_object_le {members : List (Text × Json)} {n : Nat}
    (h : ∀ m ∈ members, m.2.depth ≤ n) : (object members).depth ≤ n + 1 := by
  rw [depth, Nat.add_le_add_iff_right]
  induction members with
  | nil => exact Nat.zero_le n
  | cons m ms ih =>
      obtain ⟨hm, hms⟩ := List.forall_mem_cons.mp h
      rw [depthOfMembers]
      exact Nat.max_le.mpr ⟨hm, ih hms⟩

/-! ### Records -/

/-- What the members of an object give for a field: nothing if none has its name, and
a value if exactly one has. -/
inductive Gives (name : String) : List (Text × Json) → Option Json → Prop where
  | absent {members : List (Text × Json)} (h : ∀ m ∈ members, m.1 ≠ .unicode name) :
      Gives name members none
  | once {before after : List (Text × Json)} (v : Json)
      (hbefore : ∀ m ∈ before, m.1 ≠ .unicode name) (hafter : ∀ m ∈ after, m.1 ≠ .unicode name) :
      Gives name (before ++ (.unicode name, v) :: after) (some v)

/-- The value is a record that gives this for its declared fields, each of which may be
left out. -/
inductive Fields (names : List String) : Json → List (Option Json) → Prop where
  | array {elements : List Json} (h : elements.length ≤ names.length) :
      Fields names (array elements)
        (elements.map some ++ List.replicate (names.length - elements.length) none)
  | object {members : List (Text × Json)} {values : List (Option Json)}
      (htext : ∀ m ∈ members, m.1 ≠ .illFormed)
      (h : List.Forall₂ (fun name value => Gives name members value) names values) :
      Fields names (object members) values

/-- The value is a record that gives these values for its declared fields. -/
inductive Record (names : List String) : Json → List Json → Prop where
  | array {elements : List Json} (h : elements.length = names.length) :
      Record names (array elements) elements
  | object {members : List (Text × Json)} {values : List Json}
      (htext : ∀ m ∈ members, m.1 ≠ .illFormed)
      (h : List.Forall₂ (fun name value => Gives name members (some value)) names values) :
      Record names (object members) values

theorem field?_eq_some_iff {members : List (Text × Json)} {name : String} {value : Option Json} :
    field? members name = some value ↔ Gives name members value := by
  constructor
  · intro h
    rw [field?] at h
    split at h
    · next hfilter =>
      cases h
      exact .absent fun m hm => by simpa using List.filter_eq_nil_iff.mp hfilter m hm
    · next tag v hfilter =>
      cases h
      obtain ⟨before, after, rfl, hbefore, hname, hafter⟩ := List.filter_eq_cons_iff.mp hfilter
      obtain rfl : tag = .unicode name := by simpa using hname
      exact .once v (fun m hm => by simpa using hbefore m hm)
        fun m hm => by simpa using List.filter_eq_nil_iff.mp hafter m hm
    · cases h
  · have hnone : ∀ {ms : List (Text × Json)}, (∀ m ∈ ms, m.1 ≠ .unicode name) →
        (ms.filter fun m => m.1 = .unicode name) = [] := fun h =>
      List.filter_eq_nil_iff.mpr fun m hm => by simpa using h m hm
    rintro (h | ⟨v, hbefore, hafter⟩)
    · rw [field?, hnone h]
    · simp [field?, hnone hbefore, hnone hafter]

theorem mapM_eq_some_iff {α β : Type} {f : α → Option β} {as : List α} {bs : List β} :
    as.mapM f = some bs ↔ List.Forall₂ (fun a b => f a = some b) as bs := by
  induction as generalizing bs with
  | nil => simp [eq_comm]
  | cons a as ih =>
      rw [List.mapM_cons, List.forall₂_cons_left_iff]
      constructor
      · intro h
        obtain ⟨b, hb, h⟩ := Option.bind_eq_some_iff.mp h
        obtain ⟨bs, hbs, h⟩ := Option.bind_eq_some_iff.mp h
        cases h
        exact ⟨b, bs, hb, ih.mp hbs, rfl⟩
      · rintro ⟨b, bs, hb, hbs, rfl⟩
        simp [hb, ih.mpr hbs]

theorem fields?_eq_some_iff {names : List String} {v : Json} {values : List (Option Json)} :
    v.fields? names = some values ↔ Fields names v values := by
  constructor
  · intro h
    unfold fields? at h
    split at h
    · split at h
      · next hlength =>
        cases h
        exact .array hlength
      · cases h
    · split at h
      · next htext =>
        refine .object (by simpa using htext) ?_
        exact (mapM_eq_some_iff.mp h).imp fun _ _ => field?_eq_some_iff.mp
      · cases h
    · cases h
  · rintro (hlength | ⟨htext, h⟩)
    · exact if_pos hlength
    · rw [fields?, if_pos (by simpa using htext), mapM_eq_some_iff]
      exact h.imp fun _ _ => field?_eq_some_iff.mpr

/-- A record that gives every field is one that leaves out none. -/
theorem fields_map_some_iff {names : List String} {v : Json} {values : List Json} :
    Fields names v (values.map some) ↔ Record names v values := by
  constructor
  · generalize hgiven : values.map some = given
    rintro (@⟨elements, hlength⟩ | ⟨htext, h⟩)
    · have hleft : names.length - elements.length = 0 := by
        refine Nat.eq_zero_of_not_pos fun hpos => ?_
        have hmem : none ∈ values.map some := by
          rw [hgiven]
          exact List.mem_append_right _ (List.mem_replicate.mpr ⟨Nat.ne_of_gt hpos, rfl⟩)
        simp at hmem
      rw [hleft, List.replicate_zero, List.append_nil] at hgiven
      rw [(List.map_inj_right fun _ _ => Option.some.inj).mp hgiven]
      exact .array (by omega)
    · subst hgiven
      exact .object htext (List.forall₂_map_right_iff.mp h)
  · rintro (hlength | ⟨htext, h⟩)
    · have h := @Fields.array names values (Nat.le_of_eq hlength)
      simpa [hlength] using h
    · exact .object htext (List.forall₂_map_right_iff.mpr h)

theorem required?_eq_some_iff {names : List String} {v : Json} {values : List Json} :
    v.required? names = some values ↔ Record names v values := by
  have hid (given : List (Option Json)) : given.mapM id = some values ↔ given = values.map some := by
    rw [mapM_eq_some_iff, ← List.forall₂_eq_eq_eq, List.forall₂_map_right_iff]
    rfl
  rw [required?, ← fields_map_some_iff, ← fields?_eq_some_iff, Option.bind_eq_bind,
    Option.bind_eq_some_iff]
  constructor
  · rintro ⟨given, hgiven, h⟩
    rw [hgiven, (hid given).mp h]
  · exact fun h => ⟨_, h, (hid _).mpr rfl⟩

theorem exists_of_mem_right {α β : Type} {R : α → β → Prop} {as : List α} {bs : List β}
    (h : List.Forall₂ R as bs) {b : β} (hb : b ∈ bs) : ∃ a, R a b := by
  induction h with
  | nil => cases hb
  | cons hab _ ih =>
      rcases List.mem_cons.mp hb with rfl | hb
      · exact ⟨_, hab⟩
      · exact ih hb

theorem Gives.mem {name : String} {members : List (Text × Json)} {v : Json}
    (h : Gives name members (some v)) : (.unicode name, v) ∈ members := by
  cases h
  exact List.mem_append_right _ List.mem_cons_self

theorem Fields.depth_lt {names : List String} {v w : Json} {values : List (Option Json)}
    (h : Fields names v values) (hw : some w ∈ values) : w.depth < v.depth := by
  cases h with
  | array => exact depth_lt_array (by simpa using hw)
  | object htext h =>
      obtain ⟨name, hname⟩ := exists_of_mem_right h hw
      exact depth_lt_object hname.mem

/-- The fields of a record are a level below it. -/
theorem Record.depth_lt {names : List String} {v w : Json} {values : List Json}
    (h : Record names v values) (hw : w ∈ values) : w.depth < v.depth :=
  (fields_map_some_iff.mpr h).depth_lt (List.mem_map_of_mem hw)

theorem Fields.depth_pos {names : List String} {v : Json} {values : List (Option Json)}
    (h : Fields names v values) : 0 < v.depth := by
  cases h with
  | array => exact Nat.succ_pos _
  | object => exact Nat.succ_pos _

theorem Record.depth_pos {names : List String} {v : Json} {values : List Json}
    (h : Record names v values) : 0 < v.depth :=
  (fields_map_some_iff.mpr h).depth_pos

/-! ### Alternatives that carry nothing -/

/-- The value is the name of an alternative, bare or as an object's one name. -/
inductive IsName (name : String) : Json → Prop where
  | bare : IsName name (ofString name)
  | tagged : IsName name (tagged name null)

theorem tagged_eq (tag : String) (payload : Json) :
    tagged tag payload = object [(.unicode tag, payload)] := rfl

@[simp]
theorem depth_tagged (tag : String) (payload : Json) :
    (tagged tag payload).depth = payload.depth + 1 := by
  simp [tagged, ofFields, depth, depthOfMembers]

theorem IsName.of_bare? {levels : Nat} {v : Json} {name : String}
    (h : v.bare? levels = some name) : v.IsName name := by
  unfold bare? at h
  split at h
  · cases h
    exact .bare
  · cases h
    exact .tagged
  · cases h

theorem IsName.bare? {levels : Nat} {v : Json} {name : String} (h : v.IsName name)
    (hdepth : v.depth ≤ levels) : v.bare? levels = some name := by
  cases h with
  | bare => rw [ofString, Json.bare?]
  | tagged =>
      match levels with
      | 0 => simp at hdepth
      | levels + 1 => rfl

end Json

/-! ### Terms -/

def Operator.DenotedBy (op : Operator) (v : Json) : Prop :=
  v.IsName op.name

variable {ν : Type} [Arithmetic ν]

inductive Value.DenotedBy : Value ν → Json → Prop where
  | number (n : ν) : DenotedBy (.number n) (.tagged "Number" (.ofInt (Arithmetic.toInt n)))
  | boolean (b : Bool) : DenotedBy (.boolean b) (.tagged "Boolean" (.bool b))

inductive Term.DenotedBy : Term ν → Json → Prop where
  | number (n : ν) : DenotedBy (number n) (.tagged "Number" (.ofInt (Arithmetic.toInt n)))
  | boolean (b : Bool) : DenotedBy (boolean b) (.tagged "Boolean" (.bool b))
  | var (name : Name) : DenotedBy (var name) (.tagged "Variable" (.ofString name))
  | doNothing {v : Json} (h : v.IsName "DoNothing") : DenotedBy doNothing v
  | binary {op : Operator} {left right : Term ν} {payload o l r : Json}
      (h : Json.Record ["op", "left", "right"] payload [o, l, r]) (ho : op.DenotedBy o)
      (hl : DenotedBy left l) (hr : DenotedBy right r) :
      DenotedBy (binary op left right) (.tagged "Binary" payload)
  | assign {name : Name} {expression : Term ν} {payload e : Json}
      (h : Json.Record ["name", "expression"] payload [.ofString name, e])
      (he : DenotedBy expression e) :
      DenotedBy (assign name expression) (.tagged "Assign" payload)
  | ifElse {condition consequence alternative : Term ν} {payload c t e : Json}
      (h : Json.Record ["condition", "consequence", "alternative"] payload [c, t, e])
      (hc : DenotedBy condition c) (ht : DenotedBy consequence t)
      (he : DenotedBy alternative e) :
      DenotedBy (ifElse condition consequence alternative) (.tagged "If" payload)
  | sequence {first second : Term ν} {payload f s : Json}
      (h : Json.Record ["first", "second"] payload [f, s]) (hf : DenotedBy first f)
      (hs : DenotedBy second s) : DenotedBy (sequence first second) (.tagged "Sequence" payload)
  | whileLoop {condition body : Term ν} {payload c b : Json}
      (h : Json.Record ["condition", "body"] payload [c, b]) (hc : DenotedBy condition c)
      (hb : DenotedBy body b) : DenotedBy (whileLoop condition body) (.tagged "While" payload)

theorem Value.DenotedBy.depth_eq {v : Value ν} {w : Json} (h : v.DenotedBy w) : w.depth = 1 := by
  cases h with
  | number n => exact Json.depth_tagged "Number" _
  | boolean b => exact Json.depth_tagged "Boolean" _

/-! ### States -/

/-- An environment is denoted by an object with a member for each binding; of two for
one name the later holds. -/
inductive Environment.DenotedBy : Environment ν → Json → Prop where
  | members {members : List (Json.Text × Json)} {bindings : List (Name × Value ν)}
      (h : List.Forall₂ (fun m b => m.1 = .unicode b.1 ∧ b.2.DenotedBy m.2) members bindings) :
      DenotedBy (ofList bindings) (.object members)

/-- Values are flat, so the form of an environment is. -/
theorem Environment.DenotedBy.depth_le {env : Environment ν} {v : Json} (h : env.DenotedBy v) :
    v.depth ≤ 2 := by
  obtain @⟨members, bindings, h⟩ := h
  have hflat : ∀ m ∈ members, m.2.depth ≤ 1 :=
    ((List.forall₂_and_left _ _).mp
      (h.imp fun m b hb => ⟨Nat.le_of_eq hb.2.depth_eq, hb⟩)).1
  exact Json.depth_object_le hflat

inductive State.DenotedBy : State ν → Json → Prop where
  | record {statement : Term ν} {environment : Environment ν} {v s e : Json}
      (h : Json.Record ["statement", "environment"] v [s, e]) (hs : statement.DenotedBy s)
      (he : environment.DenotedBy e) : DenotedBy ⟨statement, environment⟩ v

/-! ### Settings -/

def TraceFormat.DenotedBy (format : TraceFormat) (v : Json) : Prop :=
  v.IsName format.word

/-- A step limit is denoted by a count of 64 bits, its absence by `null`. -/
inductive LimitDenotedBy : Option Nat → Json → Prop where
  | none : LimitDenotedBy none .null
  | some {n : Nat} (h : n < UInt64.size) : LimitDenotedBy (some n) (.ofInt n)

/-- A field that may be left out and then stands for its default. -/
inductive OrDefault {α : Type} (default : α) (Denoted : α → Json → Prop) :
    α → Option Json → Prop where
  | absent : OrDefault default Denoted default none
  | given {a : α} {v : Json} (h : Denoted a v) : OrDefault default Denoted a (some v)

inductive Config.DenotedBy : Config → Json → Prop where
  | record {stepLimit : Option Nat} {traceFormat : TraceFormat} {v : Json} {l f : Option Json}
      (h : Json.Fields ["step_limit", "trace_format"] v [l, f])
      (hl : OrDefault Config.default.stepLimit LimitDenotedBy stepLimit l)
      (hf : OrDefault Config.default.traceFormat TraceFormat.DenotedBy traceFormat f) :
      DenotedBy ⟨stepLimit, traceFormat⟩ v

end WhileLang
