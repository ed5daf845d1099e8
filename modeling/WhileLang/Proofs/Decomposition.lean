import WhileLang.Proofs.Contraction
import WhileLang.Proofs.Fault
import WhileLang.Proofs.Nesting

/-!
# A term is one redex in one nest

The way to the place that a step rewrites is a list of frames, and `position` is that
list. Nobody who looks for a redex in evaluation position can come to another one: a frame
around the right operand asks for a left operand that has settled, and whatever is put
into a frame has a redex in it and so has not settled. So a term is in one way at most a
nest around a redex, and in one way unless it has settled itself (`nest_eq_iff`).

With the nest as data a step is an equation. What the redex does by itself is done, and
the nest is put around what comes of it; if the redex fails, so does the whole, with the
same error (`reduce_eq_map`). What a redex does by itself is a finite list in both cases,
of contractions and of faults.
-/

namespace WhileLang

variable {ν : Type}

namespace Term

/-- The frames that lead to the place of the next step, the outermost first. -/
def position : Term ν → List (Frame ν)
  | binary op left right =>
      if hleft : left.isReducible = false then
        if right.isReducible then .rightOperand op left hleft :: right.position else []
      else .leftOperand op right :: left.position
  | assign name expression =>
      if expression.isReducible then .assigned name :: expression.position else []
  | ifElse condition consequence alternative =>
      if condition.isReducible then
        .condition consequence alternative :: condition.position
      else []
  | sequence first second => if first.isReducible then .first second :: first.position else []
  | _ => []

theorem position_of_settled {t : Term ν} (h : t.isReducible = false) : t.position = [] := by
  cases t with
  | number | boolean | doNothing => rfl
  | _ => cases h

theorem redex_of_settled {t : Term ν} (h : t.isReducible = false) : t.redex = t := by
  cases t with
  | number | boolean | doNothing => rfl
  | _ => cases h

theorem IsRedex.position_eq {t : Term ν} (h : t.IsRedex) : t.position = [] := by
  cases h with
  | var name => rfl
  | binary op hleft hright => simp [position, hleft, hright]
  | assign name h => simp [position, h]
  | ifElse consequence alternative h => simp [position, h]
  | sequence second h => simp [position, h]
  | whileLoop condition body => rfl

end Term

namespace Frame

theorem position_fill (f : Frame ν) {t : Term ν} (h : t.isReducible = true) :
    (f.fill t).position = f :: t.position := by
  cases f with
  | leftOperand op right => simp [fill, Term.position, h]
  | rightOperand op left settled => simp [fill, Term.position, h, settled]
  | assigned name => simp [fill, Term.position, h]
  | condition consequence alternative => simp [fill, Term.position, h]
  | first second => simp [fill, Term.position, h]

theorem isReducible_nest (frames : List (Frame ν)) {t : Term ν} (h : t.isReducible = true) :
    (nest frames t).isReducible = true := by
  cases frames with
  | nil => exact h
  | cons f frames => exact f.isReducible_fill _

/-- A nest around a redex leads to that redex, by its own frames. -/
theorem position_nest (frames : List (Frame ν)) {place : Term ν} (h : place.IsRedex) :
    (nest frames place).position = frames ∧ (nest frames place).redex = place := by
  induction frames with
  | nil => exact ⟨h.position_eq, h.redex_eq⟩
  | cons f frames ih =>
      have hpart := isReducible_nest frames h.isReducible
      rw [nest_cons, f.position_fill hpart, f.redex_fill hpart, ih.1, ih.2]
      exact ⟨rfl, rfl⟩

theorem nest_position (t : Term ν) : nest t.position t.redex = t := by
  induction t using Term.reduction_induction with
  | settled t hs => rw [Term.position_of_settled hs, Term.redex_of_settled hs, nest_nil]
  | redex t ht => rw [ht.position_eq, ht.redex_eq, nest_nil]
  | fill f t ht ih => rw [f.position_fill ht, f.redex_fill ht, nest_cons, ih]

/-- The one way to take a term apart into a redex and the frames around it. -/
theorem nest_eq_iff {t place : Term ν} {frames : List (Frame ν)} :
    place.IsRedex ∧ nest frames place = t ↔
      t.isReducible = true ∧ frames = t.position ∧ place = t.redex := by
  constructor
  · rintro ⟨hplace, rfl⟩
    obtain ⟨hframes, hredex⟩ := position_nest frames hplace
    exact ⟨isReducible_nest frames hplace.isReducible, hframes.symm, hredex.symm⟩
  · rintro ⟨ht, rfl, rfl⟩
    exact ⟨Term.isRedex_redex ht, nest_position t⟩

variable [Arithmetic ν]

/-- As long as the part has steps, the nest stays around it. -/
theorem reduce_nest (frames : List (Frame ν)) {t : Term ν} (h : t.isReducible = true)
    (env : Environment ν) :
    (nest frames t).reduce env =
      (t.reduce env).map fun s => ⟨nest frames s.statement, s.environment⟩ := by
  induction frames with
  | nil =>
      rw [nest_nil]
      cases t.reduce env <;> rfl
  | cons f frames ih =>
      rw [nest_cons, f.reduce_fill (isReducible_nest frames h), ih]
      cases t.reduce env <;> rfl

end Frame

namespace Term

variable [Arithmetic ν] {t : Term ν} {env : Environment ν} {s : State ν} {e : EvalError ν}

theorem reduce_eq_map (t : Term ν) (env : Environment ν) :
    t.reduce env =
      (t.redex.reduce env).map fun s => ⟨Frame.nest t.position s.statement, s.environment⟩ := by
  cases ht : t.isReducible with
  | false =>
      rw [redex_of_settled ht, reduce_of_settled ht]
      rfl
  | true =>
      have hplace := (isRedex_redex ht).isReducible
      rw [← Frame.reduce_nest t.position hplace, Frame.nest_position]

/-! ## What a redex does by itself -/

theorem Contracts.reduce (h : t.Contracts env s) : t.reduce env = .ok s := by
  cases h with
  | var h =>
      rw [Term.reduce, Environment.lookup_eq_ok_iff.mpr h]
      rfl
  | binary env h =>
      rw [reduce_binary_of_settled _ (isReducible_ofValue _) (isReducible_ofValue _),
        operand_eq_ok_iff.mpr rfl, operand_eq_ok_iff.mpr rfl]
      show (do return ⟨ofValue (← Operator.apply _ _ _), env⟩ : Except (EvalError ν) (State ν)) = _
      rw [h]
      rfl
  | assign name v env =>
      rw [reduce_assign_of_settled _ (isReducible_ofValue _), operand_eq_ok_iff.mpr rfl]
      rfl
  | ifTrue | ifFalse | sequence | whileLoop => rfl

/-- A redex that is no assignment leaves the environment alone, and an assignment adds the
one binding that it names. -/
theorem Contracts.environment_eq (h : t.Contracts env s) :
    (∃ x v, t = .assign x (ofValue v) ∧ s.environment = env.insert x v) ∨
      (∀ x expression, t ≠ .assign x expression) ∧ s.environment = env := by
  cases h with
  | assign name v env => exact .inl ⟨name, v, rfl, rfl⟩
  | _ => exact .inr ⟨nofun, rfl⟩

/-- A step that succeeds contracts the redex and puts the nest around what comes of it. -/
theorem reduce_eq_ok_iff :
    t.reduce env = .ok s ↔
      ∃ c, t.redex.Contracts env c ∧ s = ⟨Frame.nest t.position c.statement, c.environment⟩ := by
  rw [reduce_eq_map]
  constructor
  · intro h
    cases hc : t.redex.reduce env with
    | error e =>
        rw [hc] at h
        cases h
    | ok c =>
        rw [hc] at h
        cases h
        cases ht : t.isReducible with
        | false =>
            rw [redex_of_settled ht, reduce_of_settled ht] at hc
            cases hc
        | true => exact ⟨c, (isRedex_redex ht).contracts hc, rfl⟩
  · rintro ⟨c, hc, rfl⟩
    rw [hc.reduce]
    rfl

/-- A step rewrites one place, and there is no choice of it. A term that has not settled is
in exactly one way a redex in a nest of frames, and one that has settled is so in none. A
step does what the redex does by itself, and puts the nest around what comes of it or
passes its error on. It succeeds if and only if the redex contracts, and then the
environment is as it was, unless the redex is an assignment of a value, which adds its one
binding; it fails with the fault of the redex if that has one. -/
theorem step_rewrites_one_place (t : Term ν) :
    (∀ frames place, place.IsRedex ∧ Frame.nest frames place = t ↔
      t.isReducible = true ∧ frames = t.position ∧ place = t.redex) ∧
    ∀ env : Environment ν,
      (t.reduce env =
        (t.redex.reduce env).map fun c => ⟨Frame.nest t.position c.statement, c.environment⟩) ∧
      (∀ s, t.reduce env = .ok s ↔ ∃ c, t.redex.Contracts env c ∧
        s = ⟨Frame.nest t.position c.statement, c.environment⟩) ∧
      (∀ c, t.redex.Contracts env c →
        (∃ x v, t.redex = assign x (ofValue v) ∧ c.environment = env.insert x v) ∨
          (∀ x expression, t.redex ≠ assign x expression) ∧ c.environment = env) ∧
      (t.isReducible = true → ∀ e, t.reduce env = .error e ↔ t.redex.Faults env e) :=
  ⟨fun _ _ => Frame.nest_eq_iff, fun env => ⟨reduce_eq_map t env, fun _ => reduce_eq_ok_iff,
    fun _ hc => hc.environment_eq, fun ht _ => reduce_eq_error_iff_faults ht⟩⟩

/-- The left operand is on its way, and there in its first part: that assignment is made,
and the variable to the right of it, which is unbound, is not asked for. -/
theorem first_part_of_left_operand_steps :
    let place : Term Int64 := .assign "x" (.number 1)
    let frames : List (Frame Int64) := [.leftOperand .add (.var "y"), .first (.var "x")]
    let t := Frame.nest frames place
    t = .binary .add (.sequence place (.var "x")) (.var "y") ∧
      frames = t.position ∧ place = t.redex ∧
      t.reduce .empty = .ok ⟨.binary .add (.sequence .doNothing (.var "x")) (.var "y"),
        Environment.empty.insert "x" (.number 1)⟩ := by
  intro place frames t
  obtain ⟨hplaces, hsteps⟩ := step_rewrites_one_place t
  obtain ⟨-, hframes, hplace⟩ := (hplaces frames place).mp ⟨.assign "x" rfl, rfl⟩
  obtain ⟨-, hok, -⟩ := hsteps .empty
  exact ⟨rfl, hframes, hplace, (hok _).mpr ⟨_, .assign "x" (.number 1) .empty, rfl⟩⟩

end Term

end WhileLang
