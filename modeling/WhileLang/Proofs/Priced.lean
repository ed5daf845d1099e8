/-!
# Answers at a price

Both ways of evaluating count something while they work: the machine its
steps, the sweep its gas. What either of them comes to can therefore be said
in one form: which answers it gives, and what each of them costs. A `Priced`
is that and no more. It need not give any answer, and nothing in the type
keeps it from giving several.

Such things are put together one after the other: the second part runs if
the first succeeded, the costs add up, and an error ends the whole at what
it cost so far. That is a monad, so the meaning of a construct of the
language reads as a program, and two programs are compared by the laws of
monads rather than by following runs.

Where the two ways differ is only in the places they charge at. `CoveredBelow`
is how they are compared all the same: below a bound on its cost, every answer
of the one is an answer of the other, at whatever cost. It passes through
`bind`, and a part that has cost something lowers the bound for what follows,
which is all an induction over loops needs.
-/

namespace WhileLang

/-- What a way of evaluating comes to: which answers it gives, at which cost. -/
structure Priced (ε α : Type) where
  /-- For so much, there is this answer. -/
  Gives : Nat → Except ε α → Prop

namespace Priced

variable {ε α β : Type}

theorem ext {P Q : Priced ε α} (h : ∀ n answer, P.Gives n answer ↔ Q.Gives n answer) :
    P = Q := by
  obtain ⟨p⟩ := P
  obtain ⟨q⟩ := Q
  exact congrArg Priced.mk (funext fun n => funext fun answer => propext (h n answer))

/-- Does nothing, for a price. -/
def pay (n : Nat) : Priced ε Unit :=
  ⟨fun k answer => k = n ∧ answer = .ok ()⟩

instance : Monad (Priced ε) where
  pure a := ⟨fun n answer => n = 0 ∧ answer = .ok a⟩
  bind P Q := ⟨fun n answer =>
    (∃ e, P.Gives n (.error e) ∧ answer = .error e) ∨
      ∃ a k l, P.Gives k (.ok a) ∧ (Q a).Gives l answer ∧ n = k + l⟩

instance : MonadLift (Except ε) (Priced ε) where
  monadLift x := ⟨fun n answer => n = 0 ∧ answer = x⟩

theorem gives_pure {a : α} {n : Nat} {answer : Except ε α} :
    (pure a : Priced ε α).Gives n answer ↔ n = 0 ∧ answer = .ok a := Iff.rfl

theorem gives_liftM {x : Except ε α} {n : Nat} {answer : Except ε α} :
    (liftM x : Priced ε α).Gives n answer ↔ n = 0 ∧ answer = x := Iff.rfl

theorem Gives.bind {P : Priced ε α} {Q : α → Priced ε β} {a : α} {k l : Nat}
    {answer : Except ε β} (hP : P.Gives k (.ok a)) (hQ : (Q a).Gives l answer) :
    (P >>= Q).Gives (k + l) answer :=
  .inr ⟨a, k, l, hP, hQ, rfl⟩

theorem Gives.bind_error {P : Priced ε α} {Q : α → Priced ε β} {e : ε} {n : Nat}
    (hP : P.Gives n (.error e)) : (P >>= Q).Gives n (.error e) :=
  .inl ⟨e, hP, rfl⟩

/-! ## The laws of monads -/

theorem pure_bind (a : α) (Q : α → Priced ε β) : (pure a >>= Q) = Q a := by
  refine ext fun n answer => ⟨fun h => ?_, fun h => ?_⟩
  · rcases h with ⟨e, h, -⟩ | ⟨b, k, l, h, hQ, rfl⟩
    · cases h.2
    · cases h.2
      rwa [h.1, Nat.zero_add]
  · exact .inr ⟨a, 0, n, ⟨rfl, rfl⟩, h, (Nat.zero_add n).symm⟩

theorem bind_pure (P : Priced ε α) : (P >>= pure) = P := by
  refine ext fun n answer => ⟨fun h => ?_, fun h => ?_⟩
  · rcases h with ⟨e, h, rfl⟩ | ⟨a, k, l, h, ⟨rfl, rfl⟩, rfl⟩
    · exact h
    · exact h
  · cases answer with
    | error e => exact .inl ⟨e, h, rfl⟩
    | ok a => exact .inr ⟨a, n, 0, h, ⟨rfl, rfl⟩, rfl⟩

theorem bind_assoc {γ : Type} (P : Priced ε α) (Q : α → Priced ε β) (R : β → Priced ε γ) :
    (P >>= Q >>= R) = (P >>= fun a => Q a >>= R) := by
  refine ext fun n answer => ⟨fun h => ?_, fun h => ?_⟩
  · rcases h with ⟨e, ⟨e', h, he⟩ | ⟨a, k, l, h, hQ, rfl⟩, rfl⟩ |
      ⟨b, k, l, ⟨e, -, he⟩ | ⟨a, i, j, h, hQ, rfl⟩, hR, rfl⟩
    · cases he
      exact .inl ⟨e, h, rfl⟩
    · exact .inr ⟨a, k, l, h, .inl ⟨e, hQ, rfl⟩, rfl⟩
    · cases he
    · exact .inr ⟨a, i, j + l, h, .inr ⟨b, j, l, hQ, hR, rfl⟩, Nat.add_assoc i j l⟩
  · rcases h with ⟨e, h, rfl⟩ | ⟨a, k, l, h, ⟨e, hQ, rfl⟩ | ⟨b, i, j, hQ, hR, rfl⟩, rfl⟩
    · exact .inl ⟨e, .inl ⟨e, h, rfl⟩, rfl⟩
    · exact .inl ⟨e, .inr ⟨a, k, l, h, hQ, rfl⟩, rfl⟩
    · exact .inr ⟨b, k + i, j, .inr ⟨a, k, i, h, hQ, rfl⟩, hR, (Nat.add_assoc k i j).symm⟩

instance : LawfulMonad (Priced ε) :=
  LawfulMonad.mk' (Priced ε) bind_pure pure_bind bind_assoc

theorem liftM_pure (a : α) :
    (liftM (pure a : Except ε α) : Priced ε α) = pure a := rfl

theorem liftM_ok (a : α) : (liftM (.ok a : Except ε α) : Priced ε α) = pure a := rfl

theorem liftM_error_bind (e : ε) (Q : α → Priced ε β) :
    ((liftM (.error e : Except ε α) : Priced ε α) >>= Q) = liftM (.error e : Except ε β) := by
  refine ext fun n answer => ⟨fun h => ?_, fun h => ?_⟩
  · rcases h with ⟨e', ⟨rfl, he⟩, rfl⟩ | ⟨a, k, l, h, -, -⟩
    · cases he
      exact ⟨rfl, rfl⟩
    · cases h.2
  · obtain ⟨rfl, rfl⟩ := h
    exact .inl ⟨e, ⟨rfl, rfl⟩, rfl⟩

theorem liftM_bind (x : Except ε α) (f : α → Except ε β) :
    (liftM (x >>= f) : Priced ε β) = (liftM x >>= fun a => liftM (f a)) := by
  cases x with
  | error e => exact (liftM_error_bind e _).symm
  | ok a => exact (pure_bind a fun b => liftM (f b)).symm

theorem gives_pay_bind {k n : Nat} {Q : Unit → Priced ε α} {answer : Except ε α} :
    (pay k >>= Q).Gives n answer ↔ ∃ l, (Q ()).Gives l answer ∧ n = k + l := by
  refine ⟨fun h => ?_, fun h => ?_⟩
  · rcases h with ⟨e, h, -⟩ | ⟨_, i, l, ⟨rfl, -⟩, hQ, rfl⟩
    · cases h.2
    · exact ⟨l, hQ, rfl⟩
  · obtain ⟨l, hQ, rfl⟩ := h
    exact Gives.bind ⟨rfl, rfl⟩ hQ

theorem gives_bind_ok_iff {P : Priced ε α} {Q : α → Priced ε β} {n : Nat} {b : β} :
    (P >>= Q).Gives n (.ok b) ↔
      ∃ a k l, P.Gives k (.ok a) ∧ (Q a).Gives l (.ok b) ∧ n = k + l := by
  constructor
  · intro h
    rcases h with ⟨e, -, he⟩ | h
    · cases he
    · exact h
  · intro h
    exact .inr h

theorem gives_liftM_bind_ok_iff {x : Except ε α} {Q : α → Priced ε β} {n : Nat} {b : β} :
    ((liftM x : Priced ε α) >>= Q).Gives n (.ok b) ↔ ∃ a, x = .ok a ∧ (Q a).Gives n (.ok b) := by
  rw [gives_bind_ok_iff]
  constructor
  · intro h
    obtain ⟨a, _, l, ⟨rfl, ha⟩, hQ, rfl⟩ := h
    rw [Nat.zero_add]
    exact ⟨a, ha.symm, hQ⟩
  · intro h
    obtain ⟨a, rfl, hQ⟩ := h
    exact ⟨a, 0, n, ⟨rfl, rfl⟩, hQ, (Nat.zero_add n).symm⟩

/-- What follows matters only for the results that there are. -/
theorem bind_congr_of_gives {P : Priced ε α} {Q Q' : α → Priced ε β}
    (h : ∀ a n, P.Gives n (.ok a) → Q a = Q' a) : (P >>= Q) = (P >>= Q') := by
  refine ext fun n answer => ⟨fun hg => ?_, fun hg => ?_⟩
  · rcases hg with he | ⟨a, k, l, hP, hQ, rfl⟩
    · exact .inl he
    · rw [h a k hP] at hQ
      exact hP.bind hQ
  · rcases hg with he | ⟨a, k, l, hP, hQ, rfl⟩
    · exact .inl he
    · rw [← h a k hP] at hQ
      exact hP.bind hQ

/-! ## Having the other's answers -/

/-- Every answer that the first gives for less than `N`, the second gives too,
at some cost. -/
def CoveredBelow (N : Nat) (P Q : Priced ε α) : Prop :=
  ∀ ⦃n answer⦄, n < N → P.Gives n answer → ∃ k, Q.Gives k answer

namespace CoveredBelow

variable {N : Nat} {P P' : Priced ε α}

theorem zero (P P' : Priced ε α) : P.CoveredBelow 0 P' :=
  fun n _ hn _ => absurd hn (Nat.not_lt_zero n)

theorem refl (N : Nat) (P : Priced ε α) : P.CoveredBelow N P :=
  fun n _ _ h => ⟨n, h⟩

theorem bind {Q Q' : α → Priced ε β} (hP : P.CoveredBelow N P')
    (hQ : ∀ a, (Q a).CoveredBelow N (Q' a)) : (P >>= Q).CoveredBelow N (P' >>= Q') := by
  intro n answer hn h
  rcases h with ⟨e, he, rfl⟩ | ⟨a, k, l, ha, hl, rfl⟩
  · obtain ⟨k, hk⟩ := hP hn he
    exact ⟨k, hk.bind_error⟩
  · obtain ⟨k', hk⟩ := hP (by omega) ha
    obtain ⟨l', hl⟩ := hQ a (by omega) hl
    exact ⟨k' + l', hk.bind hl⟩

/-- If the first part is never free, what follows it needs less of a bound. -/
theorem bind_of_pos {Q Q' : α → Priced ε β} (hP : P.CoveredBelow (N + 1) P')
    (hpos : ∀ ⦃n a⦄, P.Gives n (.ok a) → 0 < n)
    (hQ : ∀ a, (Q a).CoveredBelow N (Q' a)) :
    (P >>= Q).CoveredBelow (N + 1) (P' >>= Q') := by
  intro n answer hn h
  rcases h with ⟨e, he, rfl⟩ | ⟨a, k, l, ha, hl, rfl⟩
  · obtain ⟨k, hk⟩ := hP hn he
    exact ⟨k, hk.bind_error⟩
  · have hk := hpos ha
    obtain ⟨k', hk'⟩ := hP (by omega) ha
    obtain ⟨l', hl'⟩ := hQ a (by omega) hl
    exact ⟨k' + l', hk'.bind hl'⟩

theorem ite {c : Prop} [Decidable c] {Q Q' : Priced ε α} (h : P.CoveredBelow N P')
    (h' : Q.CoveredBelow N Q') :
    (if c then P else Q).CoveredBelow N (if c then P' else Q') := by
  split
  · exact h
  · exact h'

theorem pay_left (k : Nat) {Q : Unit → Priced ε α} (h : (Q ()).CoveredBelow N P') :
    (pay k >>= Q).CoveredBelow N P' := by
  intro n answer hn hQ
  obtain ⟨l, hl, rfl⟩ := gives_pay_bind.mp hQ
  exact h (by omega) hl

/-- A price that was paid lowers the bound for the rest. -/
theorem pay_succ_left {k : Nat} {Q : Unit → Priced ε α} (h : (Q ()).CoveredBelow N P') :
    (pay (k + 1) >>= Q).CoveredBelow (N + 1) P' := by
  intro n answer hn hQ
  obtain ⟨l, hl, rfl⟩ := gives_pay_bind.mp hQ
  exact h (by omega) hl

theorem pay_right (k : Nat) {Q : Unit → Priced ε α} (h : P.CoveredBelow N (Q ())) :
    P.CoveredBelow N (pay k >>= Q) := by
  intro n answer hn hP
  obtain ⟨l, hl⟩ := h hn hP
  exact ⟨k + l, gives_pay_bind.mpr ⟨l, hl, rfl⟩⟩

end CoveredBelow

end Priced

end WhileLang
