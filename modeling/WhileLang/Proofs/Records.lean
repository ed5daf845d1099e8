import WhileLang.Proofs.Json.Printable
import WhileLang.Proofs.Json.RoundTrip
import WhileLang.Proofs.Story

/-!
# A trace is a list of records

In the format for programs each state is a line of its own. The names in it are arbitrary
text, so a reader who cuts the trace at newlines relies on there being none in a line. All
names are written inside of literals, by the writer that escapes control characters; so
no byte of a record is below 0x20, and the only newlines are those behind the records.

Where the trace is cut therefore depends on the writer alone. What each of the pieces
says is a matter of reading: a record is read as what was written, and its environment,
which is nested no deeper than two levels, is read back from it.
-/

namespace WhileLang

/-- The byte that ends a line. -/
def newline : UInt8 := 0x0A

/-- The bytes are these lines, each followed by a newline. No control character stands in
any of them, so cutting at newlines gives the lines, and nothing behind the last. -/
structure Lines (bytes : List UInt8) (lines : List String) : Prop where
  bytes_eq : bytes = lines.flatMap fun line => utf8 line ++ [newline]
  printable : ∀ line ∈ lines, ∀ b ∈ utf8 line, 0x20 ≤ b
  splitOn_newline : bytes.splitOn newline = lines.map utf8 ++ [[]]

theorem utf8_string_append (a b : String) : utf8 (a ++ b) = utf8 a ++ utf8 b := by
  rw [utf8_eq_flatMap, utf8_eq_flatMap, utf8_eq_flatMap, String.toList_append, List.flatMap_append]

theorem utf8_join_lines (lines : List String) :
    utf8 (String.join (lines.map fun line => line ++ "\n")) =
      lines.flatMap fun line => utf8 line ++ [newline] := by
  induction lines with
  | nil => rfl
  | cons line lines ih =>
      rw [List.map_cons, String.join_cons, utf8_string_append, utf8_string_append, ih,
        List.flatMap_cons]
      rfl

theorem lines_of_printable {lines : List String}
    (h : ∀ line ∈ lines, Json.Printable line.toList) :
    Lines (utf8 (String.join (lines.map fun line => line ++ "\n"))) lines where
  bytes_eq := utf8_join_lines lines
  printable line hline b hb := le_of_mem_utf8 (h line hline) hb
  splitOn_newline := by
    rw [utf8_join_lines]
    induction lines with
    | nil => rfl
    | cons line lines ih =>
        obtain ⟨hline, hlines⟩ := List.forall_mem_cons.mp h
        have hnone : newline ∉ utf8 line := by
          intro hmem
          exact absurd (le_of_mem_utf8 hline hmem) (by decide)
        rw [List.flatMap_cons, List.append_assoc, List.singleton_append,
          List.splitOn_append_cons_self_of_not_mem hnone, ih hlines]
        rfl

variable {ν : Type} [Arithmetic ν]

namespace Machine

theorem writable_record (m : Machine ν) : m.record.Writable := by
  refine Json.writable_ofFields ?_
  simpa using ⟨Json.writable_ofInt m.steps, Json.writable_ofString m.state.statement.render,
    m.state.environment.writable_toJson⟩

/-- The text is a record of this state. It is read as an object with the number of steps,
with the statement as it is rendered, and with a third member from which the environment
is read back with as few levels as two. -/
def IsRecord (steps : Nat) (s : State ν) (text : String) : Prop :=
  ∃ environment, Json.read? text = some (.ofFields
      [("step", .ofInt steps), ("statement", .ofString s.statement.render),
        ("environment", environment)]) ∧
    ∀ levels, 2 ≤ levels → Exchange.ofJson? levels environment = some s.environment

theorem isRecord_write_record (m : Machine ν) : IsRecord m.steps m.state m.record.write := by
  refine ⟨Exchange.toJson m.state.environment, ?_, fun levels hlevels => ?_⟩
  · exact Json.read?_eq_some_iff.mpr m.writable_record.spelled_write
  · have henv := m.state.environment.denotedBy_toJson
    exact Environment.follows.complete henv (Nat.le_trans henv.depth_le hlevels)

/-- The machine when it has come to the state at this place in its story. -/
def arrivedAt (m : Machine ν) (i : Nat) (s : State ν) : Machine ν :=
  { m with state := s, steps := m.steps + i }

theorem transcript_of_json {m : Machine ν} (hformat : m.config.traceFormat = .json)
    (states : List (State ν)) (answer : Except (EvalError ν) (State ν)) :
    m.transcript states answer =
      String.join ((states.mapIdx fun i s => (m.arrivedAt i s).record.write).map
        fun line => line ++ "\n") := by
  rw [transcript, hformat]
  refine congrArg String.join (List.mapIdx_eq_iff.mpr fun i => ?_)
  rw [List.getElem?_map, List.getElem?_mapIdx, Option.map_map]
  rfl

/-- A trace for programs can be taken apart without loss. Whatever names there are in the
program, if a traced run stops, what it wrote are lines of their own, one for each state
it came to, and each line is the record of that state. -/
theorem json_trace_is_records {m : Machine ν} (hformat : m.config.traceFormat = .json)
    {fuel : Nat} {sink : Sink} {result : Except (RunError ν) (State ν)}
    (h : m.runTraced? fuel .unlimited = some (sink, result)) :
    ∃ states answer, m.Story states answer ∧ result = answer.mapError .eval ∧
      ∃ lines : List String, Lines sink.written.data.toList lines ∧
        lines.length = states.length ∧
        ∀ (i : Nat) (hi : i < states.length) (hi' : i < lines.length),
          IsRecord (m.steps + i) states[i] lines[i] := by
  obtain ⟨states, answer, hstory, hresult, hwritten⟩ := exists_story_of_runTraced? h
  refine ⟨states, answer, hstory, hresult,
    states.mapIdx fun i s => (m.arrivedAt i s).record.write, ?_, List.length_mapIdx, ?_⟩
  · rw [hwritten, ByteArray.empty_append, transcript_of_json hformat]
    refine lines_of_printable fun line hline => ?_
    obtain ⟨i, hi, rfl⟩ := List.mem_mapIdx.mp hline
    exact (writable_record _).printable
  · intro i hi hi'
    rw [List.getElem_mapIdx]
    exact isRecord_write_record (m.arrivedAt i states[i])

/-- Newlines, quotes, backslashes and other control characters in names do not break lines. -/
theorem trace_with_odd_names_is_records :
    let m : Machine Int64 :=
      .start (.assign "\n\"" (.var "\\\x00\r")) (.ofList [("\\\x00\r", .number 1)]) ⟨none, .json⟩
    ∃ sink result, m.runTraced? 3 .unlimited = some (sink, result) ∧
      ∃ lines : List String, Lines sink.written.data.toList lines ∧ lines.length = 3 := by
  intro m
  have hrun : m.runTraced? 3 .unlimited = some (_, _) := rfl
  obtain ⟨states, answer, hstory, -, lines, hlines, hlength, -⟩ :=
    json_trace_is_records (m := m) rfl hrun
  have htrace : m.trace? 3 = some (.ok [_, _, _]) := rfl
  have hstates := trace?_mono (Nat.le_max_left 3 states.length) htrace
  rw [trace?_mono (Nat.le_max_right 3 states.length) hstory.trace?] at hstates
  cases answer with
  | error e => cases hstates
  | ok s =>
      cases hstates
      exact ⟨_, _, hrun, lines, hlines, hlength⟩

end Machine

end WhileLang
