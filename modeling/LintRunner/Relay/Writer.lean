import LintRunner.Host.IoError
import LintRunner.Text.Utf8

/-!
# Writers

Where relayed lines go. A writer may take fewer bytes than it is offered, and it
may fail to take any or to pass on what it took. A sink is a writer with limits:
it takes only so many bytes at once, in all, and so many flushes.
-/

namespace LintRunner.Relay

/-- Something that can be written to, by the state that it is in. -/
class Writer (σ : Type) where
  /-- Offers some bytes, and tells how many of them were taken. -/
  write : σ → Bytes → Except IoError (Nat × σ)
  /-- Asks to pass on all that was taken. -/
  flush : σ → Except IoError σ

namespace Writer

variable {σ : Type} [Writer σ]

/-- Offers the bytes until all are taken or the writer fails. The bytes that
were taken come first. Each write takes a byte, so their number is bounded. -/
def writeAll (s : σ) (bytes : Bytes) : Nat → Bytes × Except IoError σ
  | 0 => ([], .ok s)
  | writes + 1 =>
    if bytes.isEmpty then ([], .ok s)
    else
      match write s bytes with
      | .error e => ([], .error e)
      | .ok (0, _) => ([], .error .nothingWritten)
      | .ok (n, s) =>
        let (taken, result) := writeAll s (bytes.drop n) writes
        (bytes.take n ++ taken, result)

end Writer

/-! ## Sinks -/

/-- What a sink still takes: at most `perWrite` bytes at once, `room` bytes in
all, and `flushes` flushes; each is unlimited if absent. Without room a sink
fails, or takes nothing if it is `silent`. -/
structure Sink where
  perWrite : Option Nat := none
  room : Option Nat := none
  silent : Bool := false
  flushes : Option Nat := none
deriving DecidableEq, Repr

namespace Sink

def atMost (n : Nat) : Option Nat → Nat
  | none => n
  | some m => min n m

def write (s : Sink) (bytes : Bytes) : Except IoError (Nat × Sink) :=
  if s.room == some 0 && !s.silent then .error .brokenPipe
  else
    let n := atMost (atMost bytes.length s.perWrite) s.room
    .ok (n, { s with room := s.room.map (· - n) })

def flush (s : Sink) : Except IoError Sink :=
  match s.flushes with
  | none => .ok s
  | some 0 => .error .brokenPipe
  | some (n + 1) => .ok { s with flushes := some n }

instance : Writer Sink := ⟨write, flush⟩

end Sink

end LintRunner.Relay
