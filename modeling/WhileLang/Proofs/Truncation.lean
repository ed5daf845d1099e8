import WhileLang.Proofs.Story

/-!
# A sink that fills up cuts the trace

What a traced run writes does not depend on the sink, as long as the sink takes it. So
there is one text that the run has to show, and it grows as the run goes on; `shown` is
that text so far. While the run goes on it is the lines of the machines that stepping has
come to (`shown_of_unfinished`). A sink with a capacity takes the beginning of it, and the
only question is which comes first, the end of the run or the end of the capacity.

That is answered for any number of steps. If all that is shown fits, the run under the
capacity is the run without it (`runTracedFor_of_fits`), and this includes the case that
neither has come to an end. If it does not fit, the run has ended in the sink's failure
(`runTracedFor_of_full`), whatever the program would have done then or later: a state is
written before it is left, so a failure of the sink is seen before the step that follows.

A run that never ends shows a byte at least in every state, since a line is never empty.
So no capacity lasts for ever, and the steps that are tried are at most as many as the
bytes that are taken.
-/

namespace WhileLang

section

variable {written : ByteArray} {n : Nat} {text : String}

theorem Sink.write_of_fits (h : (written ++ text.toUTF8).size ≤ n) :
    (Sink.mk written (some n)).write text = (⟨written ++ text.toUTF8, some n⟩, .ok ()) :=
  if_pos h

/-- A sink that overflows has taken what it can. -/
theorem Sink.write_of_full (h : n < (written ++ text.toUTF8).size) :
    (Sink.mk written (some n)).write text =
      (⟨(written ++ text.toUTF8).extract 0 n, some n⟩, .error full) :=
  if_neg (Nat.not_le_of_lt h)

end

theorem size_le_size_append (a b : ByteArray) : a.size ≤ (a ++ b).size := by
  rw [ByteArray.size_append]
  exact Nat.le_add_right _ _

/-- The beginning of a text is not changed by what follows it. -/
theorem extract_append_of_size_le {a : ByteArray} {n : Nat} (h : n ≤ a.size) (b : ByteArray) :
    (a ++ b).extract 0 n = a.extract 0 n := by
  rw [ByteArray.extract_append, Nat.sub_eq_zero_of_le h]
  simp

namespace Machine

variable {ν : Type} [Arithmetic ν]

/-- What a machine has shown when it has tried so many steps, or earlier if it stopped
before: a line for each state and, if the run succeeded, what ends the trace. -/
def shown (fuel : Nat) (m : Machine ν) : String :=
  if m.isTerminal then
    m.traceLine ++ m.traceEnd
  else
    match fuel with
    | 0 => m.traceLine
    | fuel + 1 =>
        match m.step with
        | (.error _, _) => m.traceLine
        | (.ok (), next) => m.traceLine ++ next.shown fuel

theorem size_traceLine_pos (m : Machine ν) : 0 < m.traceLine.toUTF8.size := by
  rw [traceLine]
  split
  all_goals
    rw [utf8_append, ByteArray.size_append]
    have : "\n".toUTF8.size = 1 := rfl
    omega

/-- What is shown later continues what was shown before. -/
theorem shown_mono {fuel k : Nat} (hle : fuel ≤ k) (m : Machine ν) :
    ∃ more, m.shown k = m.shown fuel ++ more := by
  fun_induction shown fuel m generalizing k with
  | case1 fuel m ht =>
      rw [shown.eq_def, if_pos ht]
      exact ⟨"", String.append_empty.symm⟩
  | case2 m ht =>
      rw [shown.eq_def, if_neg ht]
      cases k with
      | zero => exact ⟨"", String.append_empty.symm⟩
      | succ k =>
          match m.step with
          | (.error e, _) => exact ⟨"", String.append_empty.symm⟩
          | (.ok (), next) => exact ⟨next.shown k, rfl⟩
  | case3 m ht fuel e last hs =>
      obtain ⟨k, rfl⟩ : ∃ k', k = k' + 1 := ⟨k - 1, by omega⟩
      simp only [shown.eq_def (k + 1), if_neg ht, hs]
      exact ⟨"", String.append_empty.symm⟩
  | case4 m ht fuel next hs ih =>
      obtain ⟨k, rfl⟩ : ∃ k', k = k' + 1 := ⟨k - 1, by omega⟩
      obtain ⟨more, hmore⟩ := ih (Nat.le_of_succ_le_succ hle)
      simp only [shown.eq_def (k + 1), if_neg ht, hs]
      exact ⟨more, by rw [hmore, String.append_assoc]⟩

/-- A run that has not come to its end has shown more bytes than it has tried steps. -/
theorem lt_size_shown {fuel : Nat} {m : Machine ν} (h : m.run? fuel = none) :
    fuel < (m.shown fuel).toUTF8.size := by
  fun_induction shown fuel m with
  | case1 fuel m ht => simp [run?.eq_def, ht] at h
  | case2 m ht => exact m.size_traceLine_pos
  | case3 m ht fuel e last hs => simp [run?.eq_def, ht, hs] at h
  | case4 m ht fuel next hs ih =>
      have hrest : next.run? fuel = none := by simpa [run?.eq_def (fuel + 1), ht, hs] using h
      have hline := m.size_traceLine_pos
      have hshown := ih hrest
      rw [utf8_append, ByteArray.size_append]
      omega

/-- The lines of the machines that stepping comes to, the present one included, in so many
steps. -/
def linesUpTo (n : Nat) (m : Machine ν) : List String :=
  (List.range (n + 1)).map fun i => (m.stepUpTo i).1.traceLine

theorem join_linesUpTo_zero (m : Machine ν) : String.join (m.linesUpTo 0) = m.traceLine := by
  rw [linesUpTo, List.range_one, List.map_singleton, String.join_cons]
  exact String.append_empty

theorem linesUpTo_succ {m next : Machine ν} (hs : m.step = (.ok (), next)) (n : Nat) :
    m.linesUpTo (n + 1) = m.traceLine :: next.linesUpTo n := by
  rw [linesUpTo, List.range_succ_eq_map, List.map_cons, List.map_map, linesUpTo]
  refine congrArg (m.traceLine :: ·) (List.map_congr_left fun i _ => ?_)
  show (m.stepUpTo (i + 1)).1.traceLine = _
  rw [stepUpTo, hs]

/-- As long as a run goes on, the lines of the machines it came to are all that is shown. -/
theorem shown_of_unfinished {fuel : Nat} {m : Machine ν} (h : m.run? fuel = none) :
    m.shown fuel = String.join (m.linesUpTo fuel) := by
  fun_induction shown fuel m with
  | case1 fuel m ht => simp [run?.eq_def, ht] at h
  | case2 m ht => exact m.join_linesUpTo_zero.symm
  | case3 m ht fuel e last hs => simp [run?.eq_def, ht, hs] at h
  | case4 m ht fuel next hs ih =>
      have hrest : next.run? fuel = none := by simpa [run?.eq_def (fuel + 1), ht, hs] using h
      rw [ih hrest, linesUpTo_succ hs, String.join_cons]

/-- Without a capacity, all that is shown is written, and the run is the silent one. -/
theorem runTracedFor_of_no_capacity (fuel : Nat) (m : Machine ν) (written : ByteArray) :
    m.runTracedFor fuel ⟨written, none⟩ = (⟨written ++ (m.shown fuel).toUTF8, none⟩,
      (m.run? fuel).map fun answer => answer.mapError .eval) := by
  fun_induction shown fuel m generalizing written with
  | case1 fuel m ht =>
      rw [runTracedFor.eq_def, run?.eq_def, if_pos ht]
      simp only [Sink.write_of_no_capacity, if_pos ht]
      rw [utf8_append, ByteArray.append_assoc]
      rfl
  | case2 m ht =>
      rw [runTracedFor.eq_def, run?.eq_def, if_neg ht]
      simp only [Sink.write_of_no_capacity, if_neg ht]
      rfl
  | case3 m ht fuel e last hs =>
      rw [runTracedFor.eq_def, run?.eq_def, if_neg ht]
      simp only [Sink.write_of_no_capacity, if_neg ht, hs]
      rfl
  | case4 m ht fuel next hs ih =>
      rw [runTracedFor.eq_def, run?.eq_def, if_neg ht]
      simp only [Sink.write_of_no_capacity, if_neg ht, hs]
      rw [ih, utf8_append, ByteArray.append_assoc]

/-- A capacity for all that is shown is not felt. -/
theorem runTracedFor_of_fits {fuel : Nat} {m : Machine ν} {written : ByteArray} {n : Nat}
    (h : (written ++ (m.shown fuel).toUTF8).size ≤ n) :
    m.runTracedFor fuel ⟨written, some n⟩ = (⟨written ++ (m.shown fuel).toUTF8, some n⟩,
      (m.run? fuel).map fun answer => answer.mapError .eval) := by
  fun_induction shown fuel m generalizing written with
  | case1 fuel m ht =>
      rw [utf8_append, ← ByteArray.append_assoc] at h ⊢
      have hline := Nat.le_trans (size_le_size_append _ _) h
      rw [runTracedFor.eq_def, run?.eq_def, if_pos ht, Sink.write_of_fits hline]
      simp only [if_pos ht, Sink.write_of_fits h]
      rfl
  | case2 m ht =>
      rw [runTracedFor.eq_def, run?.eq_def, if_neg ht, Sink.write_of_fits h]
      simp only [if_neg ht]
      rfl
  | case3 m ht fuel e last hs =>
      rw [runTracedFor.eq_def, run?.eq_def, if_neg ht, Sink.write_of_fits h]
      simp only [if_neg ht, hs]
      rfl
  | case4 m ht fuel next hs ih =>
      rw [utf8_append, ← ByteArray.append_assoc] at h ⊢
      have hline := Nat.le_trans (size_le_size_append _ _) h
      rw [runTracedFor.eq_def, run?.eq_def, if_neg ht, Sink.write_of_fits hline]
      simp only [if_neg ht, hs]
      exact ih h

theorem runTracedFor_of_full_line {fuel : Nat} {m : Machine ν} {written : ByteArray} {n : Nat}
    (h : n < (written ++ m.traceLine.toUTF8).size) :
    m.runTracedFor fuel ⟨written, some n⟩ =
      (⟨(written ++ m.traceLine.toUTF8).extract 0 n, some n⟩, some (.error (.trace Sink.full))) := by
  rw [runTracedFor.eq_def, Sink.write_of_full h]

/-- A capacity that is too small ends the run where it ends. -/
theorem runTracedFor_of_full {fuel : Nat} {m : Machine ν} {written : ByteArray} {n : Nat}
    (h : n < (written ++ (m.shown fuel).toUTF8).size) :
    m.runTracedFor fuel ⟨written, some n⟩ =
      (⟨(written ++ (m.shown fuel).toUTF8).extract 0 n, some n⟩,
        some (.error (.trace Sink.full))) := by
  fun_induction shown fuel m generalizing written with
  | case1 fuel m ht =>
      rw [utf8_append, ← ByteArray.append_assoc] at h ⊢
      rcases Nat.lt_or_ge n (written ++ m.traceLine.toUTF8).size with hline | hline
      · rw [runTracedFor_of_full_line hline, extract_append_of_size_le (Nat.le_of_lt hline)]
      · rw [runTracedFor.eq_def, Sink.write_of_fits hline]
        simp only [if_pos ht, Sink.write_of_full h]
  | case2 m ht => exact runTracedFor_of_full_line h
  | case3 m ht fuel e last hs => exact runTracedFor_of_full_line h
  | case4 m ht fuel next hs ih =>
      rw [utf8_append, ← ByteArray.append_assoc] at h ⊢
      rcases Nat.lt_or_ge n (written ++ m.traceLine.toUTF8).size with hline | hline
      · rw [runTracedFor_of_full_line hline, extract_append_of_size_le (Nat.le_of_lt hline)]
      · rw [runTracedFor.eq_def, Sink.write_of_fits hline]
        simp only [if_neg ht, hs]
        exact ih h

/-- A sink with a capacity takes the beginning of what the run has to show. That grows at
its end only, and after any number of steps it is what a sink without a capacity has been
written; while the run goes on, this is a line for every machine it came to. If the run
ends and all of it fits, the sink takes all of it and the run returns what it returns
without the capacity. If the run ends and not all of it fits, the sink takes as much as it
can and the run returns the sink's failure. And if the run never ends, it returns that
failure all the same, before it has tried more steps than the sink takes bytes. -/
theorem capacity_cuts_trace (m : Machine ν) (capacity : Nat) :
    (∀ fuel k, fuel ≤ k → ∃ more, m.shown k = m.shown fuel ++ more) ∧
    (∀ fuel, m.runTracedFor fuel .unlimited = (⟨(m.shown fuel).toUTF8, none⟩,
      (m.run? fuel).map fun answer => answer.mapError .eval)) ∧
    (∀ fuel, m.run? fuel = none → m.shown fuel = String.join (m.linesUpTo fuel)) ∧
    (∀ fuel sink answer, m.runTraced? fuel .unlimited = some (sink, answer) →
      sink.written = (m.shown fuel).toUTF8 ∧
      m.runTraced? fuel (.ofCapacity capacity) =
        if sink.written.size ≤ capacity then some (⟨sink.written, some capacity⟩, answer)
        else some (⟨sink.written.extract 0 capacity, some capacity⟩,
          .error (.trace Sink.full))) ∧
    ((∀ fuel, m.runTraced? fuel .unlimited = none) → ∀ fuel, capacity ≤ fuel →
      capacity < (m.shown fuel).toUTF8.size ∧
      m.runTraced? fuel (.ofCapacity capacity) =
        some (⟨(m.shown fuel).toUTF8.extract 0 capacity, some capacity⟩,
          .error (.trace Sink.full))) := by
  have hunlimited : ∀ fuel, m.runTracedFor fuel .unlimited = (⟨(m.shown fuel).toUTF8, none⟩,
      (m.run? fuel).map fun answer => answer.mapError .eval) := by
    intro fuel
    rw [Sink.unlimited, runTracedFor_of_no_capacity, ByteArray.empty_append]
  refine ⟨fun fuel k hle => shown_mono hle m, hunlimited, fun fuel => shown_of_unfinished,
    fun fuel sink answer h => ?_, fun h fuel hle => ?_⟩
  · rw [runTraced?_eq_some_iff, hunlimited, Prod.mk.injEq] at h
    obtain ⟨rfl, hanswer⟩ := h
    refine ⟨rfl, ?_⟩
    rw [Sink.ofCapacity]
    split
    · next hfits =>
      rw [runTraced?_eq_some_iff, runTracedFor_of_fits (by rwa [ByteArray.empty_append]), hanswer,
        ByteArray.empty_append]
    · next hfull =>
      have hfull := Nat.lt_of_not_le hfull
      rw [runTraced?_eq_some_iff, runTracedFor_of_full (by rwa [ByteArray.empty_append]),
        ByteArray.empty_append]
  · have hnone := runTraced?_eq_none_iff.mp (h fuel)
    rw [hunlimited, Option.map_eq_none_iff] at hnone
    have hsize := Nat.lt_of_le_of_lt hle (lt_size_shown hnone)
    refine ⟨hsize, ?_⟩
    rw [Sink.ofCapacity, runTraced?_eq_some_iff,
      runTracedFor_of_full (by rwa [ByteArray.empty_append]), ByteArray.empty_append]

end Machine

end WhileLang
