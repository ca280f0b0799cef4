/-! # Sinks

A sink collects the output of a program. One with a capacity keeps only so many bytes: a write that does not
fit places what fits and then fails. -/

namespace Lox

/-- The bytes written so far, and how many there may be. -/
structure Sink where
  bytes : ByteArray := .empty
  capacity : Option Nat := none

namespace Sink

/-- The complaint about a write that does not fit. -/
def full : String := "sink full"

/-- Writes a text, and tells whether all of it was placed. -/
def write (sink : Sink) (text : String) : Bool × Sink :=
  let data := text.toUTF8
  let room := match sink.capacity with
    | none => data.size
    | some capacity => capacity - sink.bytes.size
  if data.size ≤ room then (true, { sink with bytes := sink.bytes ++ data })
  else (false, { sink with bytes := sink.bytes ++ data.extract 0 room })

end Sink

end Lox
