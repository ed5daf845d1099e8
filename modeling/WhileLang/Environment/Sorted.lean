import WhileLang.Name

/-!
# Sorted lists of bindings

A finite map as a list of bindings, strictly ascending by name. Strictness does
two jobs: it makes the order of the list the order of the names, and it leaves no
room for a name bound twice. So two such lists that answer every look-up alike
are the same list, and equality of maps is equality of lists.

The laws of look-up and insertion hold without the order. Only the last theorem
needs it.
-/

namespace WhileLang.Sorted

variable {β : Type}

def Ascending (l : List (Name × β)) : Prop :=
  l.Pairwise fun a b => a.1.Precedes b.1

def find? (name : Name) : List (Name × β) → Option β
  | [] => none
  | (k, w) :: rest => if name = k then some w else find? name rest

/-- Binds a name in its place, replacing what it was bound to. -/
def insert (name : Name) (v : β) : List (Name × β) → List (Name × β)
  | [] => [(name, v)]
  | (k, w) :: rest =>
      if name = k then (name, v) :: rest
      else if name.Precedes k then (name, v) :: (k, w) :: rest
      else (k, w) :: insert name v rest

theorem mem_insert {name : Name} {v : β} {l : List (Name × β)} {b : Name × β}
    (h : b ∈ insert name v l) : b = (name, v) ∨ b ∈ l := by
  induction l with
  | nil => exact .inl (by simpa [insert] using h)
  | cons hd rest ih =>
    obtain ⟨k, w⟩ := hd
    rw [insert] at h
    split at h
    · rcases List.mem_cons.mp h with h | h
      · exact .inl h
      · exact .inr (List.mem_cons_of_mem _ h)
    · split at h
      · exact List.mem_cons.mp h
      · rcases List.mem_cons.mp h with h | h
        · exact .inr (h ▸ List.mem_cons_self)
        · exact (ih h).imp_right (List.mem_cons_of_mem _)

theorem Ascending.insert {l : List (Name × β)} (h : Ascending l) (name : Name) (v : β) :
    Ascending (insert name v l) := by
  induction l with
  | nil => exact List.pairwise_singleton ..
  | cons hd rest ih =>
    obtain ⟨k, w⟩ := hd
    obtain ⟨hk, hrest⟩ := List.pairwise_cons.mp h
    rw [Sorted.insert]
    split
    · next he =>
      subst he
      exact List.pairwise_cons.mpr ⟨hk, hrest⟩
    · next hne =>
      split
      · next hlt =>
        refine List.pairwise_cons.mpr ⟨?_, h⟩
        intro b hb
        rcases List.mem_cons.mp hb with rfl | hb
        · exact hlt
        · exact hlt.trans (hk b hb)
      · next hnlt =>
        refine List.pairwise_cons.mpr ⟨?_, ih hrest⟩
        intro b hb
        rcases mem_insert hb with rfl | hb
        · exact Name.precedes_of_not_precedes hnlt hne
        · exact hk b hb

theorem find?_insert (name : Name) (v : β) (x : Name) (l : List (Name × β)) :
    find? x (insert name v l) = if x = name then some v else find? x l := by
  induction l with
  | nil => simp [insert, find?]
  | cons hd rest ih =>
    obtain ⟨k, w⟩ := hd
    rw [insert]
    split
    · next he =>
      subst he
      by_cases hx : x = name <;> simp [find?, hx]
    · next hne =>
      split
      · by_cases hx : x = name <;> simp [find?, hx]
      · by_cases hx : x = k
        · subst hx
          simp [find?, Ne.symm hne]
        · simp [find?, hx, ih]

theorem find?_eq_none_of_precedes {name : Name} {l : List (Name × β)}
    (h : ∀ b ∈ l, name.Precedes b.1) : find? name l = none := by
  induction l with
  | nil => rfl
  | cons hd rest ih =>
    rw [find?, if_neg (h hd List.mem_cons_self).ne]
    exact ih fun b hb => h b (List.mem_cons_of_mem _ hb)

/-- In an ascending list, a name is bound to what the list pairs it with. -/
theorem find?_eq_some_iff {name : Name} {v : β} {l : List (Name × β)} (h : Ascending l) :
    find? name l = some v ↔ (name, v) ∈ l := by
  induction l with
  | nil => simp [find?]
  | cons hd rest ih =>
    obtain ⟨k, w⟩ := hd
    obtain ⟨hk, hrest⟩ := List.pairwise_cons.mp h
    by_cases hx : name = k
    · subst hx
      rw [find?, if_pos rfl, List.mem_cons]
      constructor
      · rintro ⟨rfl⟩
        exact .inl rfl
      · rintro (he | hmem)
        · rw [(Prod.mk.inj he).2]
        · exact absurd (hk _ hmem) (Name.Precedes.irrefl _)
    · rw [find?, if_neg hx, ih hrest, List.mem_cons]
      constructor
      · exact .inr
      · rintro (he | hmem)
        · exact absurd (Prod.mk.inj he).1 hx
        · exact hmem

/-- The order is one of the names alone. -/
theorem Ascending.map {γ : Type} {l : List (Name × β)} (h : Ascending l) (f : β → γ) :
    Ascending (l.map fun b => (b.1, f b.2)) :=
  List.pairwise_map.mpr h

theorem find?_map {γ : Type} (f : β → γ) (name : Name) (l : List (Name × β)) :
    find? name (l.map fun b => (b.1, f b.2)) = (find? name l).map f := by
  induction l with
  | nil => rfl
  | cons hd rest ih =>
    rw [List.map_cons, find?, find?]
    split
    · rfl
    · exact ih

/-- Ascending lists with the same look-ups are the same. -/
theorem Ascending.ext {l l' : List (Name × β)} (h : Ascending l) (h' : Ascending l')
    (hfind : ∀ x, find? x l = find? x l') : l = l' := by
  induction l generalizing l' with
  | nil =>
    cases l' with
    | nil => rfl
    | cons hd rest => simpa [find?] using hfind hd.1
  | cons hd rest ih =>
    obtain ⟨k, w⟩ := hd
    obtain ⟨hk, hrest⟩ := List.pairwise_cons.mp h
    cases l' with
    | nil => simpa [find?] using hfind k
    | cons hd' rest' =>
      obtain ⟨k', w'⟩ := hd'
      obtain ⟨hk', hrest'⟩ := List.pairwise_cons.mp h'
      have hkk : k = k' := by
        apply Decidable.byContradiction
        intro hne
        have hmem : (k, w) ∈ rest' := by
          have := hfind k
          rw [find?, if_pos rfl] at this
          rcases List.mem_cons.mp ((find?_eq_some_iff h').mp this.symm) with he | hm
          · exact absurd (Prod.mk.inj he).1 hne
          · exact hm
        have hmem' : (k', w') ∈ rest := by
          have := hfind k'
          rw [find?, find?, if_neg (Ne.symm hne), if_pos rfl] at this
          exact (find?_eq_some_iff hrest).mp this
        exact (hk _ hmem').asymm (hk' _ hmem)
      subst hkk
      have hww : w = w' := by simpa [find?] using hfind k
      subst hww
      rw [ih hrest hrest' fun x => ?_]
      by_cases hx : x = k
      · subst hx
        rw [find?_eq_none_of_precedes hk, find?_eq_none_of_precedes hk']
      · have := hfind x
        rwa [find?, find?, if_neg hx, if_neg hx] at this

end WhileLang.Sorted
