import WhileLang.Proofs.Contraction

/-!
# The names a program reads and assigns

A program can only ask for the names that it holds as variables, and only bind those
that it assigns to; a name that it assigns to is not asked for by that. Which names
these are is a matter of its text, and a run never adds to them: a step puts a value in
the place of a variable, drops what has finished or was not chosen, and copies a loop,
whose names were there before.

What a step can do to the environment is therefore known from the text, too. It leaves
it as it is, or it binds one of the names assigned (`environment_reduce`).
-/

namespace WhileLang

variable {ν : Type}

namespace Term

/-- The names of the variables in a term, as often as they occur. -/
def namesRead : Term ν → List Name
  | number _ | boolean _ | doNothing => []
  | var name => [name]
  | binary _ left right => left.namesRead ++ right.namesRead
  | assign _ expression => expression.namesRead
  | ifElse condition consequence alternative =>
      condition.namesRead ++ (consequence.namesRead ++ alternative.namesRead)
  | sequence first second => first.namesRead ++ second.namesRead
  | whileLoop condition body => condition.namesRead ++ body.namesRead

/-- The names that assignments in a term are to, as often as they occur. -/
def namesAssigned : Term ν → List Name
  | number _ | boolean _ | doNothing | var _ => []
  | binary _ left right => left.namesAssigned ++ right.namesAssigned
  | assign name expression => name :: expression.namesAssigned
  | ifElse condition consequence alternative =>
      condition.namesAssigned ++ (consequence.namesAssigned ++ alternative.namesAssigned)
  | sequence first second => first.namesAssigned ++ second.namesAssigned
  | whileLoop condition body => condition.namesAssigned ++ body.namesAssigned

@[simp]
theorem namesRead_ofValue (v : Value ν) : (ofValue v).namesRead = [] := by
  cases v <;> rfl

@[simp]
theorem namesAssigned_ofValue (v : Value ν) : (ofValue v).namesAssigned = [] := by
  cases v <;> rfl

end Term

namespace Frame

theorem namesRead_subset_fill (f : Frame ν) (t : Term ν) :
    t.namesRead ⊆ (f.fill t).namesRead := by
  cases f <;> simp [fill, Term.namesRead]

/-- What is put into a frame in the place of something else adds no names by the
frame. -/
theorem namesRead_fill_subset (f : Frame ν) {t t' : Term ν} (h : t'.namesRead ⊆ t.namesRead) :
    (f.fill t').namesRead ⊆ (f.fill t).namesRead := by
  intro x
  have hx : x ∈ t'.namesRead → x ∈ t.namesRead := @h x
  cases f <;> simp only [fill, Term.namesRead, List.mem_append] <;> grind

theorem namesAssigned_subset_fill (f : Frame ν) (t : Term ν) :
    t.namesAssigned ⊆ (f.fill t).namesAssigned := by
  cases f <;> simp [fill, Term.namesAssigned]

theorem namesAssigned_fill_subset (f : Frame ν) {t t' : Term ν}
    (h : t'.namesAssigned ⊆ t.namesAssigned) :
    (f.fill t').namesAssigned ⊆ (f.fill t).namesAssigned := by
  intro x
  have hx : x ∈ t'.namesAssigned → x ∈ t.namesAssigned := @h x
  cases f <;> simp only [fill, Term.namesAssigned, List.mem_append, List.mem_cons] <;> grind

end Frame

namespace Term

theorem namesRead_redex_subset (t : Term ν) : t.redex.namesRead ⊆ t.namesRead := by
  induction t using reduction_induction with
  | settled t hs =>
      cases t with
      | number | boolean | doNothing => exact List.Subset.refl _
      | _ => cases hs
  | redex t ht =>
      rw [ht.redex_eq]
      exact List.Subset.refl _
  | fill f t ht ih =>
      rw [f.redex_fill ht]
      exact List.Subset.trans ih (f.namesRead_subset_fill t)

variable [Arithmetic ν] {t : Term ν} {env : Environment ν} {s : State ν}

/-- A step reads no name that was not read before. -/
theorem namesRead_reduce (h : t.reduce env = .ok s) : s.statement.namesRead ⊆ t.namesRead := by
  refine contraction_induction (motive := fun t _ s => s.statement.namesRead ⊆ t.namesRead)
    (fun t env s hc => ?_) (fun f t env s ih => f.namesRead_fill_subset ih) h
  cases hc <;> simp [namesRead]

/-- Nor does it assign to one that was not assigned to. -/
theorem namesAssigned_reduce (h : t.reduce env = .ok s) :
    s.statement.namesAssigned ⊆ t.namesAssigned := by
  refine contraction_induction
    (motive := fun t _ s => s.statement.namesAssigned ⊆ t.namesAssigned)
    (fun t env s hc => ?_) (fun f t env s ih => f.namesAssigned_fill_subset ih) h
  cases hc <;> simp [namesAssigned]

/-- Everything that a step can do to the environment. -/
theorem environment_reduce (h : t.reduce env = .ok s) :
    s.environment = env ∨ ∃ x v, x ∈ t.namesAssigned ∧ s.environment = env.insert x v := by
  refine contraction_induction
    (motive := fun t env s => s.environment = env ∨
      ∃ x v, x ∈ t.namesAssigned ∧ s.environment = env.insert x v)
    (fun t env s hc => ?_) (fun f t env s ih => ?_) h
  · cases hc with
    | assign name v env => exact .inr ⟨name, v, List.mem_cons_self, rfl⟩
    | _ => exact .inl rfl
  · rcases ih with henv | ⟨x, v, hx, henv⟩
    · exact .inl henv
    · exact .inr ⟨x, v, f.namesAssigned_subset_fill t hx, henv⟩

end Term

end WhileLang
