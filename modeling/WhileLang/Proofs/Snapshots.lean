import Mathlib.Data.Finset.Card
import Mathlib.Data.List.Induction
import WhileLang.Environment.Lemmas
import WhileLang.Exchange.State

/-!
# Snapshots and their histories

Environments are made from nothing, from a list of bindings, or from an earlier one by one
more binding. Any number of them may come from the same one, and each of these has a
history of its own: what was written to the one it came from, and then what was written
to itself. A family of snapshots is kept here together with these histories.

What carries everything is that a snapshot cannot be told from one that was collected from
its whole history at once. That holds of each snapshot as it is made, and no snapshot is
touched when another is made, so it holds of all of them in every family. What remains
are facts about `ofList`: a look-up finds the last binding of a name in the list, and the
names bound are those in the list, each of them once and in order.
-/

namespace WhileLang

open Environment

variable {ν : Type}

/-- What was last written to a name, if anything was. -/
def lastWrite? (writes : List (Name × Value ν)) (x : Name) : Option (Value ν) :=
  writes.reverse.lookup x

theorem lastWrite?_concat (writes : List (Name × Value ν)) (name : Name) (v : Value ν) (x : Name) :
    lastWrite? (writes ++ [(name, v)]) x = if x = name then some v else lastWrite? writes x := by
  rw [lastWrite?, List.reverse_append, List.reverse_singleton, List.singleton_append,
    List.lookup_cons]
  by_cases hx : x = name
  · rw [if_pos hx, beq_iff_eq.mpr hx]
  · rw [if_neg hx, beq_eq_false_iff_ne.mpr hx]
    rfl

/-- The last write is one that no other to the name comes after. -/
theorem lastWrite?_eq_some_iff {writes : List (Name × Value ν)} {x : Name} {v : Value ν} :
    lastWrite? writes x = some v ↔
      ∃ before after, writes = before ++ (x, v) :: after ∧ ∀ b ∈ after, x ≠ b.1 := by
  rw [lastWrite?, List.lookup_eq_some_iff]
  constructor
  · intro h
    obtain ⟨l₁, l₂, hwrites, hne⟩ := h
    refine ⟨l₂.reverse, l₁.reverse, ?_, ?_⟩
    · rw [← List.reverse_reverse writes, hwrites]
      simp
    · intro b hb
      simpa using hne b (List.mem_reverse.mp hb)
  · intro h
    obtain ⟨before, after, rfl, hne⟩ := h
    refine ⟨after.reverse, before.reverse, by simp, ?_⟩
    intro b hb
    simpa using hne b (List.mem_reverse.mp hb)

theorem isSome_lastWrite? {writes : List (Name × Value ν)} {x : Name} :
    (lastWrite? writes x).isSome = true ↔ x ∈ writes.map Prod.fst := by
  simp [lastWrite?, List.lookup_isSome_iff]

namespace Environment

theorem get?_ofList (writes : List (Name × Value ν)) (x : Name) :
    (ofList writes).get? x = lastWrite? writes x := by
  induction writes using List.reverseRecOn with
  | nil => rfl
  | append_singleton writes b ih => rw [ofList_concat, get?_insert, lastWrite?_concat, ih]

theorem mem_names_iff {env : Environment ν} {x : Name} :
    x ∈ env.toList.map Prod.fst ↔ env.contains x = true := by
  simp [contains_iff, get?_eq_some_iff_mem]

theorem names_ascending (env : Environment ν) :
    (env.toList.map Prod.fst).Pairwise Name.Precedes :=
  List.pairwise_map.mpr env.ascending

theorem names_nodup (env : Environment ν) : (env.toList.map Prod.fst).Nodup :=
  env.names_ascending.imp Name.Precedes.ne

/-- The size of an environment is the number of its names. -/
theorem size_eq_card {env : Environment ν} {names : List Name}
    (h : ∀ x, env.contains x = true ↔ x ∈ names) : env.size = names.toFinset.card := by
  have hnames : (env.toList.map Prod.fst).toFinset = names.toFinset := by
    ext x
    rw [List.mem_toFinset, List.mem_toFinset, mem_names_iff, h]
  calc env.size = (env.toList.map Prod.fst).length := (List.length_map _).symm
    _ = (env.toList.map Prod.fst).toFinset.card := (List.toFinset_card_of_nodup env.names_nodup).symm
    _ = names.toFinset.card := congrArg Finset.card hnames

end Environment

/-- An environment and all that was written to it, the last write at the end. -/
structure Snapshot (ν : Type) where
  environment : Environment ν
  writes : List (Name × Value ν)

namespace Snapshot

/-- The environment shows its own history and nothing else. -/
structure Faithful (s : Snapshot ν) : Prop where
  get? : ∀ x, s.environment.get? x = lastWrite? s.writes x
  last : ∀ x v, s.environment.get? x = some v ↔
    ∃ before after, s.writes = before ++ (x, v) :: after ∧ ∀ b ∈ after, x ≠ b.1
  lookup : ∀ x, s.environment.lookup x =
    (lastWrite? s.writes x).elim (.error (.unboundVariable x)) .ok
  contains : ∀ x, s.environment.contains x = (s.environment.get? x).isSome
  bound : ∀ x, s.environment.contains x = true ↔ x ∈ s.writes.map Prod.fst
  size : s.environment.size = (s.writes.map Prod.fst).toFinset.card
  listed : ∀ x v, (x, v) ∈ s.environment.toList ↔ s.environment.get? x = some v
  once : ∀ x, (s.environment.toList.map Prod.fst).count x =
    if s.environment.contains x then 1 else 0
  ascending : (s.environment.toList.map Prod.fst).Pairwise Name.Precedes

theorem faithful_ofList (writes : List (Name × Value ν)) : Faithful ⟨ofList writes, writes⟩ := by
  have hget := get?_ofList writes
  have hbound : ∀ x, (ofList writes).contains x = true ↔ x ∈ writes.map Prod.fst := by
    intro x
    rw [contains, hget, isSome_lastWrite?]
  refine
    { get? := hget
      last := fun x v => ?_
      lookup := fun x => ?_
      contains := fun _ => rfl
      bound := hbound
      size := size_eq_card hbound
      listed := fun _ _ => get?_eq_some_iff_mem.symm
      once := fun x => ?_
      ascending := names_ascending _ }
  · rw [hget, lastWrite?_eq_some_iff]
  · show (ofList writes).lookup x = _
    rw [lookup, hget]
    cases lastWrite? writes x <;> rfl
  · rw [(names_nodup _).count]
    simp only [mem_names_iff]

end Snapshot

/-- A way of making an environment. -/
inductive Construction (ν : Type) where
  | new
  | collect (bindings : List (Name × Value ν))
  /-- One more binding, in the snapshot at this place in the family. -/
  | extend (earlier : Nat) (name : Name) (v : Value ν)

namespace Construction

/-- The snapshot that is made, unless it is to be made from one that is not there. -/
def snapshot? (family : List (Snapshot ν)) : Construction ν → Option (Snapshot ν)
  | new => some ⟨.empty, []⟩
  | collect bindings => some ⟨.ofList bindings, bindings⟩
  | extend earlier name v =>
      family[earlier]?.map fun s => ⟨s.environment.insert name v, s.writes ++ [(name, v)]⟩

/-- Makes snapshots one after the other, each of them from those before it. -/
def grow? (family : List (Snapshot ν)) : List (Construction ν) → Option (List (Snapshot ν))
  | [] => some family
  | c :: rest => do
      let s ← c.snapshot? family
      grow? (family ++ [s]) rest

/-- Each snapshot is what its history makes when it is collected. -/
def Collected (family : List (Snapshot ν)) : Prop :=
  ∀ s ∈ family, s.environment = ofList s.writes

variable {family later : List (Snapshot ν)}

theorem Collected.snapshot? {c : Construction ν} {s : Snapshot ν} (hfamily : Collected family)
    (h : c.snapshot? family = some s) : s.environment = ofList s.writes := by
  cases c with
  | new =>
      cases h
      rfl
  | collect bindings =>
      cases h
      rfl
  | extend earlier name v =>
      obtain ⟨e, he, rfl⟩ := Option.map_eq_some_iff.mp h
      have hcollected := hfamily e (List.mem_of_getElem? he)
      show e.environment.insert name v = ofList (e.writes ++ [(name, v)])
      rw [ofList_concat, hcollected]

theorem Collected.grow? {cs : List (Construction ν)} (hfamily : Collected family)
    (h : grow? family cs = some later) : Collected later := by
  induction cs generalizing family with
  | nil =>
      cases h
      exact hfamily
  | cons c rest ih =>
      obtain ⟨s, hs, h⟩ := Option.bind_eq_some_iff.mp h
      refine ih (fun s' hs' => ?_) h
      rcases List.mem_append.mp hs' with hmem | hlast
      · exact hfamily s' hmem
      · rw [List.mem_singleton.mp hlast]
        exact hfamily.snapshot? hs

/-- Whatever else is made, the snapshots that there are stay what and where they are. -/
theorem prefix_of_grow? {cs : List (Construction ν)} (h : grow? family cs = some later) :
    family <+: later := by
  induction cs generalizing family with
  | nil =>
      cases h
      exact List.prefix_rfl
  | cons c rest ih =>
      obtain ⟨s, -, h⟩ := Option.bind_eq_some_iff.mp h
      exact (List.prefix_append family [s]).trans (ih h)

variable [Arithmetic ν]

/-- Environments are canonical and persistent. In every family of snapshots, each shows the
last writes of its own history, each name once and in order, and goes on to do so
whatever is made after it. Two of them are equal if and only if all look-ups agree, which
is to say the last writes of their histories; and then they are listed, displayed and
encoded alike. -/
theorem snapshots_are_canonical {cs : List (Construction ν)} {family : List (Snapshot ν)}
    (h : grow? [] cs = some family) :
    (∀ s ∈ family, s.Faithful) ∧
    (∀ cs' later, grow? family cs' = some later →
      ∀ (i : Nat) s, family[i]? = some s → later[i]? = some s) ∧
    ∀ s ∈ family, ∀ t ∈ family,
      (s.environment = t.environment ↔
        ∀ x, s.environment.get? x = t.environment.get? x) ∧
      (s.environment = t.environment ↔ ∀ x, lastWrite? s.writes x = lastWrite? t.writes x) ∧
      ((∀ x, s.environment.get? x = t.environment.get? x) →
        s.environment.toList = t.environment.toList ∧
          s.environment.render = t.environment.render ∧
          Exchange.encode s.environment = Exchange.encode t.environment) := by
  have hcollected : Collected family := Collected.grow? (fun s hs => by cases hs) h
  have hfaithful : ∀ s ∈ family, s.Faithful := by
    intro s hs
    obtain ⟨env, writes⟩ := s
    obtain rfl : env = ofList writes := hcollected _ hs
    exact Snapshot.faithful_ofList writes
  refine ⟨hfaithful, fun cs' later h' i s hs => ?_, fun s hs t ht => ?_⟩
  · obtain ⟨made, rfl⟩ := prefix_of_grow? h'
    obtain ⟨hi, -⟩ := List.getElem?_eq_some_iff.mp hs
    rw [List.getElem?_append_left hi, hs]
  · have heq : s.environment = t.environment ↔
        ∀ x, s.environment.get? x = t.environment.get? x :=
      ⟨fun he x => by rw [he], Environment.ext⟩
    refine ⟨heq, ?_, fun hget => ?_⟩
    · rw [heq]
      simp only [(hfaithful s hs).get?, (hfaithful t ht).get?]
    · rw [heq.mpr hget]
      exact ⟨rfl, rfl, rfl⟩

/-- Three snapshots come from one, which keeps what it holds; two of them are equal, though
one was overwritten on the way. -/
theorem branches_of_one_snapshot :
    let cs : List (Construction Int64) :=
      [.new, .collect [("é", .number 1), ("b", .boolean true), ("é", .number 2)],
        .extend 1 "b" (.number 3), .extend 1 "b" (.number 4), .extend 3 "b" (.number 3)]
    ∃ family, grow? [] cs = some family ∧ (∀ s ∈ family, s.Faithful) ∧
      (family.map fun s => s.environment.toList) =
        [[], [("b", .boolean true), ("é", .number 2)], [("b", .number 3), ("é", .number 2)],
          [("b", .number 4), ("é", .number 2)], [("b", .number 3), ("é", .number 2)]] := by
  intro cs
  have h : grow? [] cs = some _ := rfl
  exact ⟨_, h, (snapshots_are_canonical h).1, rfl⟩

end Construction

end WhileLang
