import WhileLang.Proofs.Names
import WhileLang.Proofs.Sweep

/-!
# A run depends on the names it reads and on nothing else

A program is started twice, in environments that agree on the names it reads. They need
not be equal, and they do not become equal: what the two runs have bound they have bound
alike, and a name that neither has bound is still what it was at the start. `Tracks` says
just that of the environments the two runs have come to. It is kept by every assignment,
and it makes the two agree wherever the first two did, so every name that is read later
has one value in both.

With that the two runs ask the same questions in the same order and get the same
answers. For steps this is an induction on their number, in which the names read can
only become fewer. For sweeps it is an induction over the term, and over the rounds for a
loop; there the meter is carried along, which both runs charge alike.
-/

namespace WhileLang

variable {ν : Type}

/-- Two answers that are the same error, or two results in a relation. -/
inductive Matches {ε α β : Type} (R : α → β → Prop) : Except ε α → Except ε β → Prop where
  | error (e : ε) : Matches R (.error e) (.error e)
  | ok {a : α} {b : β} (h : R a b) : Matches R (.ok a) (.ok b)

namespace Matches

variable {ε α β γ δ : Type} {R : α → β → Prop} {S : γ → δ → Prop}

theorem refl (x : Except ε α) : Matches Eq x x := by
  cases x with
  | error e => exact .error e
  | ok a => exact .ok rfl

theorem mono {R' : α → β → Prop} {x : Except ε α} {y : Except ε β} (h : Matches R x y)
    (hR : ∀ a b, R a b → R' a b) : Matches R' x y := by
  cases h with
  | error e => exact .error e
  | ok h => exact .ok (hR _ _ h)

theorem flip {x : Except ε α} {y : Except ε β} (h : Matches R x y) :
    Matches (fun b a => R a b) y x := by
  cases h with
  | error e => exact .error e
  | ok h => exact .ok h

theorem bind {x : Except ε α} {y : Except ε β} {f : α → Except ε γ} {g : β → Except ε δ}
    (h : Matches R x y) (hfg : ∀ a b, R a b → Matches S (f a) (g b)) :
    Matches S (x >>= f) (y >>= g) := by
  cases h with
  | error e => exact .error e
  | ok h => exact hfg _ _ h

theorem and_of_left {x : Except ε α} {y : Except ε β} {P : α → Prop} (h : Matches R x y)
    (hx : ∀ a, x = .ok a → P a) : Matches (fun a b => R a b ∧ P a) x y := by
  cases h with
  | error e => exact .error e
  | ok h => exact .ok ⟨h, hx _ rfl⟩

theorem bind_same (x : Except ε α) {f : α → Except ε γ} {g : α → Except ε δ}
    (h : ∀ a, Matches S (f a) (g a)) : Matches S (x >>= f) (x >>= g) := by
  cases x with
  | error e => exact .error e
  | ok a => exact h a

end Matches

namespace Metered

variable {α β γ δ : Type} {R : α → β → Prop} {S : γ → δ → Prop}

/-- On every meter the two computations match, leave the meter alike, or do not answer. -/
def Matches (R : α → β → Prop) (x : Metered ν α) (y : Metered ν β) : Prop :=
  ∀ m, Option.Rel (fun p q => WhileLang.Matches R p.1 q.1 ∧ p.2 = q.2) (x.on m) (y.on m)

namespace Matches

theorem lift {x : Except (EvalError ν) α} {y : Except (EvalError ν) β}
    (h : WhileLang.Matches R x y) : Matches R (liftM x : Metered ν α) (liftM y) := by
  intro m
  rw [on_liftM, on_liftM]
  exact .some ⟨h, rfl⟩

theorem result {a : α} {b : β} (h : R a b) : Matches R (pure a : Metered ν α) (pure b) := by
  intro m
  rw [on_pure, on_pure]
  exact .some ⟨.ok h, rfl⟩

theorem unanswered : Matches R (unanswered : Metered ν α) (unanswered : Metered ν β) := by
  intro m
  rw [on_unanswered, on_unanswered]
  exact .none

theorem bind {x : Metered ν α} {y : Metered ν β} {f : α → Metered ν γ} {g : β → Metered ν δ}
    (h : Matches R x y) (hfg : ∀ a b, R a b → Matches S (f a) (g b)) :
    Matches S (x >>= f) (y >>= g) := by
  intro m
  rw [on_bind, on_bind]
  match x.on m, y.on m, h m with
  | _, _, .none => exact .none
  | _, _, .some (a := (_, m₁)) (b := (_, m₂)) ⟨hab, hm⟩ =>
      obtain rfl : m₁ = m₂ := hm
      cases hab with
      | error e => exact .some ⟨.error e, rfl⟩
      | ok hab => exact hfg _ _ hab m₁

theorem tick_bind {f : Unit → Metered ν γ} {g : Unit → Metered ν δ}
    (h : Matches S (f ()) (g ())) : Matches S (tick >>= f) (tick >>= g) := by
  have htick : Matches Eq (tick : Metered ν Unit) tick := by
    intro m
    rw [on_tick]
    exact .some ⟨.refl _, rfl⟩
  exact htick.bind fun _ _ _ => h

theorem lift_bind (x : Except (EvalError ν) α) {f : α → Metered ν γ} {g : α → Metered ν δ}
    (h : ∀ a, Matches S (f a) (g a)) : Matches S (liftM x >>= f) (liftM x >>= g) := by
  refine (lift (.refl x)).bind fun a b hab => ?_
  cases hab
  exact h a

/-- If the one computation has a result, so has the other. -/
theorem on_ok {x : Metered ν α} {y : Metered ν β} (h : Matches R x y) {m m' : Meter} {a : α}
    (hx : x.on m = some (.ok a, m')) : ∃ b, y.on m = some (.ok b, m') ∧ R a b := by
  have hm := h m
  rw [hx] at hm
  match hy : y.on m with
  | none =>
      rw [hy] at hm
      cases hm
  | some (answer, m'') =>
      rw [hy] at hm
      cases hm with
      | some hpair =>
          obtain ⟨hanswers, rfl⟩ := hpair
          cases hanswers with
          | ok hab => exact ⟨_, rfl, hab⟩

end Matches

end Metered

namespace Environment

/-- Each of these names is bound to one value in both environments, or in neither. -/
def AgreeOn (names : List Name) (e₁ e₂ : Environment ν) : Prop :=
  ∀ x ∈ names, e₁.get? x = e₂.get? x

/-- Two runs that started in the first two environments have come to the other two: of
each name these bind the same, or both still hold what was there at the start. -/
def Tracks (o₁ o₂ e₁ e₂ : Environment ν) : Prop :=
  ∀ x, e₁.get? x = e₂.get? x ∨ (e₁.get? x = o₁.get? x ∧ e₂.get? x = o₂.get? x)

variable {o₁ o₂ e₁ e₂ : Environment ν}

theorem Tracks.refl (o₁ o₂ : Environment ν) : Tracks o₁ o₂ o₁ o₂ :=
  fun _ => .inr ⟨rfl, rfl⟩

theorem Tracks.symm (h : Tracks o₁ o₂ e₁ e₂) : Tracks o₂ o₁ e₂ e₁ :=
  fun x => (h x).imp Eq.symm And.symm

theorem Tracks.insert (h : Tracks o₁ o₂ e₁ e₂) (name : Name) (v : Value ν) :
    Tracks o₁ o₂ (e₁.insert name v) (e₂.insert name v) := by
  intro x
  rw [get?_insert, get?_insert]
  split
  · exact .inl rfl
  · exact h x

/-- Where the environments agreed at the start, they still do. -/
theorem Tracks.get?_eq (h : Tracks o₁ o₂ e₁ e₂) {x : Name} (hx : o₁.get? x = o₂.get? x) :
    e₁.get? x = e₂.get? x := by
  rcases h x with heq | ⟨h₁, h₂⟩
  · exact heq
  · rw [h₁, h₂, hx]

theorem Tracks.lookup_eq (h : Tracks o₁ o₂ e₁ e₂) {name : Name}
    (hname : o₁.get? name = o₂.get? name) : e₁.lookup name = e₂.lookup name := by
  rw [lookup, lookup, h.get?_eq hname]

theorem agreeOn_append {xs ys : List Name} :
    AgreeOn (xs ++ ys) e₁ e₂ ↔ AgreeOn xs e₁ e₂ ∧ AgreeOn ys e₁ e₂ :=
  List.forall_mem_append

theorem AgreeOn.symm {xs : List Name} (h : AgreeOn xs e₁ e₂) : AgreeOn xs e₂ e₁ :=
  fun x hx => (h x hx).symm

theorem AgreeOn.mono {xs ys : List Name} (h : AgreeOn ys e₁ e₂) (hsub : xs ⊆ ys) :
    AgreeOn xs e₁ e₂ :=
  fun x hx => h x (hsub hx)

end Environment

open Environment

/-- Two runs from these environments are at the same statement, in environments that track
each other. -/
structure InStep (o₁ o₂ : Environment ν) (s₁ s₂ : State ν) : Prop where
  statement : s₁.statement = s₂.statement
  environment : Tracks o₁ o₂ s₁.environment s₂.environment

theorem InStep.symm {o₁ o₂ : Environment ν} {s₁ s₂ : State ν} (h : InStep o₁ o₂ s₁ s₂) :
    InStep o₂ o₁ s₂ s₁ :=
  ⟨h.statement.symm, h.environment.symm⟩

/-- Parts in step leave the same statement, which whatever follows looks at, and
environments that track each other. -/
theorem Metered.Matches.bind_inStep {γ δ : Type} {S : γ → δ → Prop} {o₁ o₂ : Environment ν}
    {x y : Metered ν (State ν)} {f : State ν → Metered ν γ} {g : State ν → Metered ν δ}
    (h : Matches (InStep o₁ o₂) x y)
    (hfg : ∀ t f₁ f₂, Tracks o₁ o₂ f₁ f₂ → Matches S (f ⟨t, f₁⟩) (g ⟨t, f₂⟩)) :
    Matches S (x >>= f) (y >>= g) := by
  refine h.bind fun s₁ s₂ hs => ?_
  obtain ⟨t, f₁⟩ := s₁
  obtain ⟨t', f₂⟩ := s₂
  obtain rfl : t = t' := hs.statement
  exact hfg t f₁ f₂ hs.environment

variable [Arithmetic ν] {o₁ o₂ e₁ e₂ : Environment ν} {t : Term ν}

/-! ## Steps -/

theorem Term.reduce_matches (hread : AgreeOn t.namesRead o₁ o₂) (htrack : Tracks o₁ o₂ e₁ e₂) :
    Matches (InStep o₁ o₂) (t.reduce e₁) (t.reduce e₂) := by
  induction t using reduction_induction with
  | settled t hs =>
      rw [reduce_of_settled hs, reduce_of_settled hs]
      exact .error _
  | redex t ht =>
      cases ht with
      | var name =>
          rw [reduce, reduce, htrack.lookup_eq (hread name (List.mem_singleton_self name))]
          exact .bind_same _ fun v => .ok ⟨rfl, htrack⟩
      | binary op hl hr =>
          rw [reduce_binary_of_settled op hl hr, reduce_binary_of_settled op hl hr]
          exact .bind_same _ fun a => .bind_same _ fun b => .bind_same _ fun v =>
            .ok ⟨rfl, htrack⟩
      | assign name hs =>
          rw [reduce_assign_of_settled name hs, reduce_assign_of_settled name hs]
          exact .bind_same _ fun v => .ok ⟨rfl, htrack.insert name v⟩
      | ifElse consequence alternative hs =>
          rw [reduce_ifElse_of_settled consequence alternative hs,
            reduce_ifElse_of_settled consequence alternative hs]
          exact .bind_same _ fun holds => .ok ⟨rfl, htrack⟩
      | sequence second hs =>
          rw [reduce_sequence_of_settled second hs, reduce_sequence_of_settled second hs]
          exact .bind_same _ fun _ => .ok ⟨rfl, htrack⟩
      | whileLoop condition body => exact .ok ⟨rfl, htrack⟩
  | fill f t ht ih =>
      rw [f.reduce_fill ht, f.reduce_fill ht]
      refine (ih (hread.mono (f.namesRead_subset_fill t))).bind fun s₁ s₂ hs => ?_
      exact .ok ⟨congrArg f.fill hs.statement, hs.environment⟩

namespace State

/-- After one step of both runs, the next statement reads no other names. -/
theorem step_matches (hread : AgreeOn t.namesRead o₁ o₂) (htrack : Tracks o₁ o₂ e₁ e₂) :
    Matches (fun s₁ s₂ => InStep o₁ o₂ s₁ s₂ ∧ AgreeOn s₁.statement.namesRead o₁ o₂)
      (step ⟨t, e₁⟩) (step ⟨t, e₂⟩) := by
  refine (Term.reduce_matches hread htrack).and_of_left fun s₁ hs => ?_
  exact hread.mono (Term.namesRead_reduce hs)

theorem after_matches (n : Nat) (hread : AgreeOn t.namesRead o₁ o₂)
    (htrack : Tracks o₁ o₂ e₁ e₂) :
    Matches (InStep o₁ o₂) (after n ⟨t, e₁⟩) (after n ⟨t, e₂⟩) := by
  induction n generalizing t e₁ e₂ with
  | zero => exact .ok ⟨rfl, htrack⟩
  | succ n ih =>
      rw [after, after]
      refine (step_matches hread htrack).bind fun s₁ s₂ hs => ?_
      obtain ⟨hin, hread⟩ := hs
      obtain ⟨t₁, f₁⟩ := s₁
      obtain ⟨t₂, f₂⟩ := s₂
      obtain rfl : t₁ = t₂ := hin.statement
      exact ih hread hin.environment

/-- Where the one run ends the other does, and in the same way. -/
theorem Halts.matches {n : Nat} (hread : AgreeOn t.namesRead o₁ o₂)
    (htrack : Tracks o₁ o₂ e₁ e₂) {answer₁ : Except (EvalError ν) (State ν)}
    (h : Halts ⟨t, e₁⟩ n answer₁) :
    ∃ answer₂, Halts ⟨t, e₂⟩ n answer₂ ∧ Matches (InStep o₁ o₂) answer₁ answer₂ := by
  induction n generalizing t e₁ e₂ with
  | zero =>
      have hstops := halts_zero.mp h
      cases answer₁ with
      | ok s =>
          obtain ⟨ht, rfl⟩ := hstops
          exact ⟨.ok ⟨t, e₂⟩, halts_zero.mpr ⟨ht, rfl⟩, .ok ⟨rfl, htrack⟩⟩
      | error e =>
          obtain ⟨ht, hstep⟩ := hstops
          have hmatches := step_matches hread htrack
          rw [hstep] at hmatches
          cases hs : step ⟨t, e₂⟩ with
          | ok s =>
              rw [hs] at hmatches
              cases hmatches
          | error e' =>
              rw [hs] at hmatches
              cases hmatches
              exact ⟨.error e, halts_zero.mpr ⟨ht, hs⟩, .error e⟩
  | succ n ih =>
      obtain ⟨⟨t₁, f₁⟩, hstep, h⟩ := halts_succ.mp h
      have hmatches := step_matches hread htrack
      rw [hstep] at hmatches
      cases hs : step ⟨t, e₂⟩ with
      | error e =>
          rw [hs] at hmatches
          cases hmatches
      | ok s =>
          obtain ⟨t₂, f₂⟩ := s
          rw [hs] at hmatches
          cases hmatches with
          | ok hnext =>
              obtain ⟨hin, hread⟩ := hnext
              obtain rfl : t₁ = t₂ := hin.statement
              obtain ⟨answer₂, h₂, hanswers⟩ := ih hread hin.environment h
              exact ⟨answer₂, halts_succ.mpr ⟨_, hs, h₂⟩, hanswers⟩

end State

/-! ## Sweeps -/

/-- If condition and body match from environments that track each other, so do their
rounds. -/
theorem Metered.iterate_matches {condition body : Environment ν → Metered ν (State ν)}
    (hc : ∀ f₁ f₂, Tracks o₁ o₂ f₁ f₂ → Matches (InStep o₁ o₂) (condition f₁) (condition f₂))
    (hb : ∀ f₁ f₂, Tracks o₁ o₂ f₁ f₂ → Matches (InStep o₁ o₂) (body f₁) (body f₂))
    (rounds : Nat) (htrack : Tracks o₁ o₂ e₁ e₂) :
    Matches (InStep o₁ o₂) (iterate condition body rounds e₁)
      (iterate condition body rounds e₂) := by
  induction rounds generalizing e₁ e₂ with
  | zero => exact .unanswered
  | succ rounds ih =>
      rw [iterate, iterate]
      refine (hc e₁ e₂ htrack).bind_inStep fun c f₁ f₂ htrack => .lift_bind _ fun holds => ?_
      cases holds with
      | false => exact .result ⟨rfl, htrack⟩
      | true =>
          refine (hb f₁ f₂ htrack).bind_inStep fun b g₁ g₂ htrack => ?_
          exact .lift_bind _ fun _ => ih htrack

theorem Term.eval_matches (rounds : Nat) (hread : AgreeOn t.namesRead o₁ o₂)
    (htrack : Tracks o₁ o₂ e₁ e₂) :
    Metered.Matches (InStep o₁ o₂) (t.eval rounds e₁) (t.eval rounds e₂) := by
  induction t generalizing e₁ e₂ with
  | number | boolean | doNothing => exact .tick_bind (.result ⟨rfl, htrack⟩)
  | var name =>
      rw [eval, eval, htrack.lookup_eq (hread name (List.mem_singleton_self name))]
      exact .tick_bind (.lift_bind _ fun v => .result ⟨rfl, htrack⟩)
  | binary op left right ihl ihr =>
      obtain ⟨hl, hr⟩ := agreeOn_append.mp hread
      refine .tick_bind ((ihl hl htrack).bind_inStep fun l f₁ f₂ htrack => ?_)
      refine (ihr hr htrack).bind_inStep fun r g₁ g₂ htrack => ?_
      exact .lift_bind _ fun a => .lift_bind _ fun b => .lift_bind _ fun v => .result ⟨rfl, htrack⟩
  | assign name expression ih =>
      refine .tick_bind ((ih hread htrack).bind_inStep fun e f₁ f₂ htrack => ?_)
      exact .lift_bind _ fun v => .result ⟨rfl, htrack.insert name v⟩
  | ifElse condition consequence alternative ihc iht ihe =>
      obtain ⟨hc, hbranches⟩ := agreeOn_append.mp hread
      obtain ⟨ht, he⟩ := agreeOn_append.mp hbranches
      refine .tick_bind ((ihc hc htrack).bind_inStep fun c f₁ f₂ htrack => ?_)
      refine .lift_bind _ fun holds => ?_
      cases holds with
      | true => exact iht ht htrack
      | false => exact ihe he htrack
  | sequence first second ihf ihs =>
      obtain ⟨hf, hs⟩ := agreeOn_append.mp hread
      refine .tick_bind ((ihf hf htrack).bind_inStep fun f f₁ f₂ htrack => ?_)
      exact .lift_bind _ fun _ => ihs hs htrack
  | whileLoop condition body ihc ihb =>
      obtain ⟨hc, hb⟩ := agreeOn_append.mp hread
      refine .tick_bind (Metered.iterate_matches (fun f₁ f₂ => ?_) (fun f₁ f₂ => ?_) rounds htrack)
      · exact ihc hc
      · exact ihb hb

/-- From environments that agree on the names a program reads, its runs are in step. After
every number of steps they are at the same statement, and bind each name alike or still as
they did at the start; the one fails or ends where the other does, with the same error or
in the same settled term. With any allowance of rounds, from any meter, the sweeps answer
alike, if they do, and charge the same. -/
theorem run_depends_on_names_read (t : Term ν) {e₁ e₂ : Environment ν}
    (h : AgreeOn t.namesRead e₁ e₂) :
    (∀ n, Matches (InStep e₁ e₂) (State.after n ⟨t, e₁⟩) (State.after n ⟨t, e₂⟩)) ∧
    (∀ n, (∀ answer₁, State.Halts ⟨t, e₁⟩ n answer₁ →
        ∃ answer₂, State.Halts ⟨t, e₂⟩ n answer₂ ∧ Matches (InStep e₁ e₂) answer₁ answer₂) ∧
      ∀ answer₂, State.Halts ⟨t, e₂⟩ n answer₂ →
        ∃ answer₁, State.Halts ⟨t, e₁⟩ n answer₁ ∧ Matches (InStep e₁ e₂) answer₁ answer₂) ∧
    ∀ rounds m, Option.Rel
      (fun p q => Matches (InStep e₁ e₂) p.1 q.1 ∧ p.2 = q.2)
      ((t.eval rounds e₁).on m) ((t.eval rounds e₂).on m) := by
  have htrack := Tracks.refl e₁ e₂
  refine ⟨fun n => State.after_matches n h htrack, fun n => ⟨fun answer₁ h₁ => ?_,
    fun answer₂ h₂ => ?_⟩, fun rounds => Term.eval_matches rounds h htrack⟩
  · exact h₁.matches h htrack
  · obtain ⟨answer₁, h₁, hanswers⟩ := h₂.matches h.symm htrack.symm
    exact ⟨answer₁, h₁, hanswers.flip.mono fun _ _ hs => hs.symm⟩

/-- A counting loop reads its counter only. Whatever else is bound at the start, it takes
the same number of steps and leaves the same in the name it assigns. -/
theorem counting_loop_reads_its_counter :
    let loop : Term Int64 := .whileLoop (.binary .lessThan (.var "i") (.number 2))
      (.sequence (.assign "i" (.binary .add (.var "i") (.number 1))) (.assign "last" (.var "i")))
    let e₁ : Environment Int64 := .ofList [("i", .number 0), ("kept", .number 1)]
    let e₂ : Environment Int64 := .ofList [("i", .number 0), ("last", .boolean true)]
    AgreeOn loop.namesRead e₁ e₂ ∧
      ∃ s₁ s₂, State.Halts ⟨loop, e₁⟩ 26 (.ok s₁) ∧ State.Halts ⟨loop, e₂⟩ 26 (.ok s₂) ∧
        s₁.statement = s₂.statement ∧ s₂.environment.get? "last" = some (.number 2) := by
  intro loop e₁ e₂
  have hagree : AgreeOn loop.namesRead e₁ e₂ := by
    intro x hx
    obtain rfl : x = "i" := by simpa [loop, Term.namesRead] using hx
    rfl
  have h₁ : State.Halts ⟨loop, e₁⟩ 26 (.ok ⟨.doNothing,
      .ofList [("i", .number 2), ("kept", .number 1), ("last", .number 2)]⟩) :=
    ⟨_, rfl, rfl, rfl⟩
  obtain ⟨answer₂, h₂, hanswers⟩ := ((run_depends_on_names_read loop hagree).2.1 26).1 _ h₁
  cases hanswers with
  | ok hs =>
      refine ⟨hagree, _, _, h₁, h₂, hs.statement, ?_⟩
      rcases hs.environment "last" with heq | ⟨hstart, -⟩
      · exact heq.symm
      · exact absurd hstart (by decide)

end WhileLang
