import WhileLang.Environment.Basic

/-!
# Laws of environments

An environment is known by its look-ups (`ext`), and each operation is described
by what it does to them: `empty` has none, `insert` changes one. The other views,
the list of bindings and the membership test, follow the look-ups.
-/

namespace WhileLang.Environment

variable {ν : Type}

/-- Environments with the same look-ups are equal. -/
@[ext]
theorem ext {env env' : Environment ν} (h : ∀ x, env.get? x = env'.get? x) : env = env' := by
  obtain ⟨l, hl⟩ := env
  obtain ⟨l', hl'⟩ := env'
  obtain rfl : l = l' := hl.ext hl' h
  rfl

@[simp]
theorem get?_empty (x : Name) : (empty : Environment ν).get? x = none := rfl

/-- Binding a name changes that look-up and no other. -/
theorem get?_insert (env : Environment ν) (name : Name) (v : Value ν) (x : Name) :
    (env.insert name v).get? x = if x = name then some v else env.get? x :=
  Sorted.find?_insert name v x env.bindings

@[simp]
theorem get?_insert_self (env : Environment ν) (name : Name) (v : Value ν) :
    (env.insert name v).get? name = some v := by
  simp [get?_insert]

theorem get?_insert_of_ne (env : Environment ν) {name x : Name} (v : Value ν) (h : x ≠ name) :
    (env.insert name v).get? x = env.get? x := by
  simp [get?_insert, h]

/-- A name is bound to what the list of bindings pairs it with. -/
theorem get?_eq_some_iff_mem {env : Environment ν} {x : Name} {v : Value ν} :
    env.get? x = some v ↔ (x, v) ∈ env.toList :=
  Sorted.find?_eq_some_iff env.ascending

theorem lookup_eq_ok_iff {env : Environment ν} {x : Name} {v : Value ν} :
    env.lookup x = .ok v ↔ env.get? x = some v := by
  cases h : env.get? x <;> simp [lookup, h]

/-- Reading a name fails exactly when it is unbound, and says so. -/
theorem lookup_eq_error_iff {env : Environment ν} {x : Name} {e : EvalError ν} :
    env.lookup x = .error e ↔ env.get? x = none ∧ e = .unboundVariable x := by
  cases h : env.get? x <;> simp [lookup, h, eq_comm]

theorem contains_iff {env : Environment ν} {x : Name} :
    env.contains x = true ↔ ∃ v, env.get? x = some v :=
  Option.isSome_iff_exists

@[simp]
theorem ofList_nil : (ofList [] : Environment ν) = empty := rfl

/-- The last binding of a list is the last to be made. -/
theorem ofList_concat (l : List (Name × Value ν)) (b : Name × Value ν) :
    ofList (l ++ [b]) = (ofList l).insert b.1 b.2 := by
  simp [ofList]

/-- Bindings made one after the other, in ascending order of names, come before those
that were there. -/
theorem get?_foldl_insert {l : List (Name × Value ν)} (hl : Sorted.Ascending l)
    (env : Environment ν) (x : Name) :
    (l.foldl (fun env b => env.insert b.1 b.2) env).get? x =
      (Sorted.find? x l).or (env.get? x) := by
  induction l generalizing env with
  | nil => rfl
  | cons b rest ih =>
      obtain ⟨k, w⟩ := b
      obtain ⟨hk, hrest⟩ := List.pairwise_cons.mp hl
      rw [List.foldl_cons, ih hrest, get?_insert, Sorted.find?]
      split
      · next hx =>
        subst hx
        rw [Sorted.find?_eq_none_of_precedes hk]
        rfl
      · rfl

@[simp]
theorem ofList_toList (env : Environment ν) : ofList env.toList = env := by
  ext1 x
  rw [ofList, toList, get?_foldl_insert env.ascending, get?_empty, Option.or_none]
  rfl

end WhileLang.Environment
