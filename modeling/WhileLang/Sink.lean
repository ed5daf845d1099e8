/-!
# Sinks

A trace is written to something that may fill up. A sink takes bytes in order; one
with a capacity takes the first so many of them and fails on the next. What it has
taken it keeps, also when a write fails halfway.
-/

namespace WhileLang

structure Sink where
  /-- The bytes taken so far. -/
  written : ByteArray
  /-- How many bytes it can take in all, if that is limited. -/
  capacity : Option Nat

namespace Sink

/-- An empty sink that never fails. -/
def unlimited : Sink := ⟨.empty, none⟩

/-- An empty sink that takes so many bytes. -/
def ofCapacity (n : Nat) : Sink := ⟨.empty, some n⟩

instance : Inhabited Sink := ⟨unlimited⟩

/-- The complaint of a sink that can take no more. -/
def full : String := "sink full"

/-- Writes a text in UTF-8: the sink afterwards, and whether all of it was taken. -/
def write (sink : Sink) (text : String) : Sink × Except String Unit :=
  let written := sink.written ++ text.toUTF8
  match sink.capacity with
  | none => ({ sink with written }, .ok ())
  | some n =>
      if written.size ≤ n then ({ sink with written }, .ok ())
      else ({ sink with written := written.extract 0 n }, .error full)

end Sink

end WhileLang
