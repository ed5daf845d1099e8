import WhileLang.Environment.Lemmas
import WhileLang.Proofs.Agreement
import WhileLang.Proofs.Redex

/-!
# Well-typed programs fail by overflow only

A type says what a term settles to: a value of one kind, or `do-nothing`. Names have
the kinds that a signature gives to them, and keep them, since an assignment has to
bind its name to a value of the name's kind. So an environment that fits the signature
at the start fits it all along, whichever parts of the program assign to it.

One step keeps all this (`HasType.reduce`). In a frame that is seen at once: a frame
asks for the type of its part and nothing else. In a redex the parts have settled, and
a settled term of a type is of one shape only; so no question about it is answered with
no, and what is left to fail is the range of the numbers. A loop is rewritten to a
larger term whose parts are its own, and these were typed.
-/

namespace WhileLang

variable {ν : Type}

/-- What a term settles to: a value of a kind, or `do-nothing`. -/
inductive Ty where
  | value (k : Kind)
  | unit
deriving DecidableEq

/-- The kinds of the names that a program may use. -/
abbrev Signature : Type :=
  Name → Option Kind

/-- The kind of an operator's results. -/
def Operator.kind (op : Operator) : Kind :=
  if op.isComparison then .boolean else .number

/-- A term is of a type when each of its parts is of the type its place asks for. -/
inductive HasType (Γ : Signature) : Term ν → Ty → Prop where
  | number (n : ν) : HasType Γ (.number n) (.value .number)
  | boolean (b : Bool) : HasType Γ (.boolean b) (.value .boolean)
  | doNothing : HasType Γ .doNothing .unit
  | var {name : Name} {k : Kind} (hname : Γ name = some k) : HasType Γ (.var name) (.value k)
  | binary (op : Operator) {left right : Term ν} (hleft : HasType Γ left (.value .number))
      (hright : HasType Γ right (.value .number)) :
      HasType Γ (.binary op left right) (.value op.kind)
  | assign {name : Name} {k : Kind} {expression : Term ν} (hname : Γ name = some k)
      (h : HasType Γ expression (.value k)) : HasType Γ (.assign name expression) .unit
  | ifElse {condition consequence alternative : Term ν} {τ : Ty}
      (hc : HasType Γ condition (.value .boolean)) (ht : HasType Γ consequence τ)
      (he : HasType Γ alternative τ) : HasType Γ (.ifElse condition consequence alternative) τ
  | sequence {first second : Term ν} {τ : Ty} (hf : HasType Γ first .unit)
      (hs : HasType Γ second τ) : HasType Γ (.sequence first second) τ
  | whileLoop {condition body : Term ν} (hc : HasType Γ condition (.value .boolean))
      (hb : HasType Γ body .unit) : HasType Γ (.whileLoop condition body) .unit

/-- Each name of the signature is bound to a value of its kind. -/
def Signature.Fits (Γ : Signature) (env : Environment ν) : Prop :=
  ∀ name k, Γ name = some k → ∃ v, env.get? name = some v ∧ v.kind = k

/-- The settled terms of a type. -/
def Ty.Settles : Ty → Term ν → Prop
  | value .number, t => ∃ n, t = .number n
  | value .boolean, t => ∃ b, t = .boolean b
  | unit, t => t = .doNothing

/-- How a run of a term of this type may end: in a settled term of the type, or with an
overflow. -/
inductive Ty.Ends (τ : Ty) : Except (EvalError ν) (State ν) → Prop where
  | settled {s : State ν} (h : τ.Settles s.statement) : Ends τ (.ok s)
  | overflow (op : Operator) (a b : ν) : Ends τ (.error (.arithmeticOverflow op a b))

namespace HasType

variable {Γ : Signature} {t : Term ν} {τ : Ty}

theorem settles (h : HasType Γ t τ) (ht : t.isReducible = false) : τ.Settles t := by
  cases h with
  | number n => exact ⟨n, rfl⟩
  | boolean b => exact ⟨b, rfl⟩
  | doNothing => rfl
  | _ => cases ht

/-- A settled term of a value's type is a value of its kind. -/
theorem eq_ofValue_of_settled {k : Kind} (h : HasType Γ t (.value k))
    (ht : t.isReducible = false) : ∃ v, t = .ofValue v ∧ v.kind = k := by
  have hsettles := h.settles ht
  cases k with
  | number =>
      obtain ⟨n, rfl⟩ := hsettles
      exact ⟨.number n, rfl, rfl⟩
  | boolean =>
      obtain ⟨b, rfl⟩ := hsettles
      exact ⟨.boolean b, rfl, rfl⟩

theorem ofValue (Γ : Signature) (v : Value ν) : HasType Γ (.ofValue v) (.value v.kind) := by
  cases v with
  | number n => exact .number n
  | boolean b => exact .boolean b

/-- A frame asks for the type of the part put into it, and for nothing else of it. -/
theorem of_fill {f : Frame ν} (h : HasType Γ (f.fill t) τ) :
    ∃ σ, HasType Γ t σ ∧ ∀ t', HasType Γ t' σ → HasType Γ (f.fill t') τ := by
  cases f with
  | leftOperand op right =>
      cases h with
      | binary _ hl hr => exact ⟨_, hl, fun t' h' => .binary op h' hr⟩
  | rightOperand op left settled =>
      cases h with
      | binary _ hl hr => exact ⟨_, hr, fun t' h' => .binary op hl h'⟩
  | assigned name =>
      cases h with
      | assign hname h => exact ⟨_, h, fun t' h' => .assign hname h'⟩
  | condition consequence alternative =>
      cases h with
      | ifElse hc ht he => exact ⟨_, hc, fun t' h' => .ifElse h' ht he⟩
  | first second =>
      cases h with
      | sequence hf hs => exact ⟨_, hf, fun t' h' => .sequence h' hs⟩

end HasType

theorem Signature.Fits.insert {Γ : Signature} {env : Environment ν} (h : Γ.Fits env) {name : Name}
    {v : Value ν} (hname : Γ name = some v.kind) : Γ.Fits (env.insert name v) := by
  intro x k hx
  rw [Environment.get?_insert]
  split
  · next he =>
    rw [he, hname] at hx
    cases hx
    exact ⟨v, rfl, rfl⟩
  · exact h x k hx

variable [Arithmetic ν]

/-- An operator between two numbers yields a value of its kind, or overflows. -/
theorem Operator.apply_numbers (op : Operator) (a b : ν) :
    (∃ v, op.apply (.number a) (.number b) = .ok v ∧ v.kind = op.kind) ∨
      op.apply (.number a) (.number b) = .error (.arithmeticOverflow op a b) := by
  have hkind : (op.exact (Arithmetic.toInt a) (Arithmetic.toInt b)).kind = op.kind := by
    cases op <;> rfl
  cases hexact : op.exact (Arithmetic.toInt a) (Arithmetic.toInt b) with
  | boolean holds =>
      rw [hexact] at hkind
      exact .inl ⟨.boolean holds, by simp only [apply, hexact], hkind⟩
  | number i =>
      rw [hexact] at hkind
      cases hn : (Arithmetic.ofInt? i : Option ν) with
      | none => exact .inr (apply_eq_overflow_iff.mpr ⟨rfl, rfl, rfl, i, hexact, hn⟩)
      | some n => exact .inl ⟨.number n, by simp only [apply, hexact, hn], hkind⟩

/-- A step of a well-typed term yields one of the same type, in an environment that
still fits, unless it overflows. -/
theorem HasType.reduce {Γ : Signature} {t : Term ν} {τ : Ty} {env : Environment ν}
    (h : HasType Γ t τ) (henv : Γ.Fits env) (ht : t.isReducible = true) :
    (∃ next, t.reduce env = .ok next ∧ HasType Γ next.statement τ ∧ Γ.Fits next.environment) ∨
      ∃ op a b, t.reduce env = .error (.arithmeticOverflow op a b) := by
  induction t using Term.reduction_induction generalizing τ env with
  | settled t hs =>
      rw [hs] at ht
      cases ht
  | redex t hredex =>
      cases hredex with
      | var name =>
          cases h with
          | var hname =>
              obtain ⟨v, hv, rfl⟩ := henv name _ hname
              have hlookup : env.lookup name = .ok v := Environment.lookup_eq_ok_iff.mpr hv
              refine .inl ⟨⟨.ofValue v, env⟩, ?_, .ofValue Γ v, henv⟩
              rw [Term.reduce, hlookup]
              rfl
      | binary op hl hr =>
          cases h with
          | binary _ hleft hright =>
              obtain ⟨a, rfl⟩ := hleft.settles hl
              obtain ⟨b, rfl⟩ := hright.settles hr
              have hstep : (Term.binary op (.number a) (.number b)).reduce env =
                  (op.apply (.number a) (.number b) >>= fun v => .ok ⟨.ofValue v, env⟩) :=
                Term.reduce_binary_of_settled op hl hr env
              rw [hstep]
              rcases op.apply_numbers a b with ⟨v, hv, hkind⟩ | hoverflow
              · rw [hv, ← hkind]
                exact .inl ⟨⟨.ofValue v, env⟩, rfl, .ofValue Γ v, henv⟩
              · rw [hoverflow]
                exact .inr ⟨op, a, b, rfl⟩
      | assign name hs =>
          cases h with
          | assign hname he =>
              obtain ⟨v, rfl, rfl⟩ := he.eq_ofValue_of_settled hs
              refine .inl ⟨⟨.doNothing, env.insert name v⟩, ?_, .doNothing, henv.insert hname⟩
              rw [Term.reduce_assign_of_settled name hs, Term.operand_eq_ok_iff.mpr rfl]
              rfl
      | ifElse consequence alternative hs =>
          cases h with
          | ifElse hc hconsequence halternative =>
              obtain ⟨holds, rfl⟩ := hc.settles hs
              rw [Term.reduce_ifElse_of_settled consequence alternative hs]
              refine .inl ⟨⟨if holds then consequence else alternative, env⟩, rfl, ?_, henv⟩
              cases holds with
              | true => exact hconsequence
              | false => exact halternative
      | sequence second hs =>
          cases h with
          | sequence hf hsecond =>
              cases hf.settles hs
              exact .inl ⟨⟨second, env⟩, Term.reduce_sequence_of_settled second hs env, hsecond,
                henv⟩
      | whileLoop condition body =>
          cases h with
          | whileLoop hc hb =>
              exact .inl ⟨_, rfl, .ifElse hc (.sequence hb (.whileLoop hc hb)) .doNothing, henv⟩
  | fill f t ht' ih =>
      obtain ⟨σ, hpart, hwhole⟩ := h.of_fill
      rw [f.reduce_fill ht']
      rcases ih hpart henv ht' with ⟨next, hnext, htype, hfits⟩ | ⟨op, a, b, hoverflow⟩
      · rw [hnext]
        exact .inl ⟨⟨f.fill next.statement, next.environment⟩, rfl, hwhole _ htype, hfits⟩
      · rw [hoverflow]
        exact .inr ⟨op, a, b, rfl⟩

namespace HasType

variable {Γ : Signature} {t : Term ν} {τ : Ty} {env : Environment ν}

/-- A run keeps the type of its statement and an environment that fits. -/
theorem after (h : HasType Γ t τ) (henv : Γ.Fits env) {n : Nat} {s : State ν}
    (hs : State.after n ⟨t, env⟩ = .ok s) :
    HasType Γ s.statement τ ∧ Γ.Fits s.environment := by
  refine State.after_induction
    (motive := fun u => HasType Γ u.statement τ ∧ Γ.Fits u.environment) hs ⟨h, henv⟩ ?_
  intro u next hu hnext
  obtain ⟨htype, hfits⟩ := hu
  have ht := State.isTerminal_eq_false_iff.mp (State.not_terminal_of_step hnext)
  have hnext : u.statement.reduce u.environment = .ok next := hnext
  rcases htype.reduce hfits ht with ⟨next', hnext', hkept⟩ | ⟨op, a, b, hoverflow⟩
  · rw [hnext] at hnext'
    cases hnext'
    exact hkept
  · rw [hnext] at hoverflow
    cases hoverflow

theorem overflow_of_reduce (h : HasType Γ t τ) (henv : Γ.Fits env) (ht : t.isReducible = true)
    {e : EvalError ν} (he : t.reduce env = .error e) :
    ∃ op a b, e = .arithmeticOverflow op a b := by
  rcases h.reduce henv ht with ⟨next, hnext, -⟩ | ⟨op, a, b, hoverflow⟩
  · rw [he] at hnext
    cases hnext
  · rw [he] at hoverflow
    cases hoverflow
    exact ⟨op, a, b, rfl⟩

theorem ends_of_halts (h : HasType Γ t τ) (henv : Γ.Fits env) {n : Nat}
    {answer : Except (EvalError ν) (State ν)} (hn : State.Halts ⟨t, env⟩ n answer) :
    τ.Ends answer := by
  obtain ⟨s, hs, hstops⟩ := hn
  obtain ⟨htype, hfits⟩ := h.after henv hs
  cases answer with
  | ok s' =>
      obtain ⟨hterm, rfl⟩ := hstops
      exact .settled (htype.settles (State.isTerminal_iff.mp hterm))
  | error e =>
      obtain ⟨hterm, he⟩ := hstops
      obtain ⟨op, a, b, rfl⟩ :=
        htype.overflow_of_reduce hfits (State.isTerminal_eq_false_iff.mp hterm) he
      exact .overflow op a b

/-- The run of a well-typed program stays well-typed, in environments that fit. In no
state on the way does a step or an evaluation fail with anything but an overflow, and
the end, if there is one, is a settled term of the program's type. -/
theorem runs_safely (h : HasType Γ t τ) (henv : Γ.Fits env) :
    (∀ n s, State.after n ⟨t, env⟩ = .ok s →
      HasType Γ s.statement τ ∧ Γ.Fits s.environment ∧
      (s.isTerminal = false → ∀ e, s.step = .error e → ∃ op a b, e = .arithmeticOverflow op a b) ∧
      ∀ rounds answer, s.statement.normalForm? rounds s.environment = some answer →
        τ.Ends answer) ∧
    ∀ format fuel answer, (Machine.start t env ⟨none, format⟩).run? fuel = some answer →
      τ.Ends answer := by
  refine ⟨fun n s hs => ?_, fun format fuel answer hrun => ?_⟩
  · obtain ⟨htype, hfits⟩ := h.after henv hs
    refine ⟨htype, hfits, fun hterm e he => ?_, fun rounds answer hanswer => ?_⟩
    · exact htype.overflow_of_reduce hfits (State.isTerminal_eq_false_iff.mp hterm) he
    · obtain ⟨k, hk⟩ := Term.exists_normalForm?_iff_exists_halts.mp ⟨rounds, hanswer⟩
      exact htype.ends_of_halts hfits hk
  · obtain ⟨k, hk⟩ := Term.exists_run?_iff_exists_halts.mp ⟨fuel, hrun⟩
    exact h.ends_of_halts henv hk

/-- A loop that triples a number while it is small is well-typed. So is what its first step
makes of it, and its run ends in `do-nothing`, as that of a term of its type may. Started
close to the largest number it comes to the only failure that there can be. -/
theorem tripling_loop_runs_safely :
    let Γ : Signature := fun x => if x = "x" then some .number else none
    let loop : Int64 → Term Int64 := fun bound =>
      .whileLoop (.binary .lessThan (.var "x") (.number bound))
        (.assign "x" (.binary .multiply (.var "x") (.number 3)))
    let env : Int64 → Environment Int64 := fun n => Environment.empty.insert "x" (.number n)
    (∀ bound, HasType Γ (loop bound) .unit) ∧ (∀ n, Γ.Fits (env n)) ∧
      (∃ s, State.after 1 ⟨loop 5, env 1⟩ = .ok s ∧ s.statement ≠ loop 5 ∧
        HasType Γ s.statement .unit ∧ Γ.Fits s.environment) ∧
      (∃ rounds, (loop 5).normalForm? rounds (env 1) = some (.ok ⟨.doNothing, env 9⟩)) ∧
      (∃ fuel, (Machine.start (loop 5) (env 1) ⟨none, .text⟩).run? fuel =
          some (.ok ⟨.doNothing, env 9⟩) ∧
        Ty.unit.Ends (.ok ⟨.doNothing, env 9⟩)) ∧
      let e : EvalError Int64 := .arithmeticOverflow .multiply 4000000000000000000 3
      ∃ fuel, (Machine.start (loop Int64.maxValue) (env 4000000000000000000)
          ⟨none, .text⟩).run? fuel = some (.error e) ∧
        Ty.unit.Ends (.error e : Except (EvalError Int64) (State Int64)) := by
  intro Γ loop env
  have hloop : ∀ bound, HasType Γ (loop bound) .unit := fun bound =>
    .whileLoop (.binary .lessThan (.var rfl) (.number bound))
      (.assign (k := .number) rfl (.binary .multiply (.var rfl) (.number 3)))
  have henv : ∀ n, Γ.Fits (env n) := by
    intro n x k hx
    by_cases he : x = "x"
    · subst he
      cases hx
      exact ⟨.number n, Environment.get?_insert_self _ _ _, rfl⟩
    · simp [Γ, he] at hx
  have hhalts : State.Halts ⟨loop 5, env 1⟩ 20 (.ok ⟨.doNothing, env 9⟩) := ⟨_, rfl, rfl, rfl⟩
  obtain ⟨fuel, hrun⟩ := Term.exists_run?_iff_exists_halts.mpr ⟨20, hhalts⟩
  have hfails : State.Halts ⟨loop Int64.maxValue, env 4000000000000000000⟩ 5
      (.error (.arithmeticOverflow .multiply 4000000000000000000 3)) := ⟨_, rfl, rfl, rfl⟩
  obtain ⟨fuel', hrun'⟩ := Term.exists_run?_iff_exists_halts.mpr ⟨5, hfails⟩
  obtain ⟨hstates, hends⟩ := (hloop 5).runs_safely (henv 1)
  obtain ⟨htype, hfits, -⟩ := hstates 1 _ rfl
  obtain ⟨-, hends'⟩ := (hloop Int64.maxValue).runs_safely (henv 4000000000000000000)
  exact ⟨hloop, henv, ⟨_, rfl, nofun, htype, hfits⟩, ⟨3, rfl⟩,
    ⟨fuel, hrun, hends .text fuel _ hrun⟩, fuel', hrun', hends' .text fuel' _ hrun'⟩

end HasType

end WhileLang
