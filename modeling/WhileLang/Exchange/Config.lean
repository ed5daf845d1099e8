import WhileLang.Exchange.Basic
import WhileLang.Machine.Config

/-!
# The JSON form of a machine's settings

Settings are a record in which every field may be left out and then has its default.
A step limit is a counter of 64 bits, or `null` for no limit.
-/

namespace WhileLang

def TraceFormat.word : TraceFormat → String
  | text => "text"
  | json => "json"

def TraceFormat.ofWord? : String → Option TraceFormat
  | "text" => some text
  | "json" => some json
  | _ => none

instance : Exchange TraceFormat where
  toJson format := .ofString format.word
  ofJson? levels v := do TraceFormat.ofWord? (← v.bare? levels)

/-- The count of 64 bits that a JSON value is. -/
def Json.count? (v : Json) : Option Nat := do
  let i ← v.int?
  if 0 ≤ i ∧ i.toNat < UInt64.size then some i.toNat else none

def Json.ofLimit : Option Nat → Json
  | none => .null
  | some n => .ofInt n

def Json.limit? : Json → Option (Option Nat)
  | .null => some none
  | v => v.count?.map some

instance : Exchange Config where
  toJson c := .ofFields
    [("step_limit", .ofLimit c.stepLimit), ("trace_format", Exchange.toJson c.traceFormat)]
  ofJson?
    | levels + 1, v => do
        let [stepLimit, traceFormat] ← v.fields? ["step_limit", "trace_format"] | none
        let stepLimit ← match stepLimit with
          | none => some Config.default.stepLimit
          | some v => v.limit?
        let traceFormat ← match traceFormat with
          | none => some Config.default.traceFormat
          | some v => Exchange.ofJson? levels v
        return ⟨stepLimit, traceFormat⟩
    | 0, _ => none

end WhileLang
