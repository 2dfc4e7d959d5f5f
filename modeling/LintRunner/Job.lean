import LintRunner.CommandLine
import LintRunner.Host.Program
import LintRunner.Log
import LintRunner.Relay.Scan
import LintRunner.Repository.Basic

/-!
# Jobs

A job leaves a trail of events and ends with a value or an error. The trail
holds what the runner printed and logged, and what it did with the programs it
started, in order.
-/

namespace LintRunner

inductive Event
  | line (text : String)
  | record (r : Log.Record)
  | started (c : Command)
  /-- What a started program wrote to a stream of its own. -/
  | wrote (stream : Stream) (bytes : Bytes)
  | relayed (arrival : Relay.Arrival)
  | killed
  | waited
deriving DecidableEq, Repr

inductive RunError
  | git (e : GitError)
  | bareRepository (place : Path)
  | io (e : IoError)
  | launch (program : String) (e : IoError)
deriving DecidableEq, Repr

def RunError.message : RunError → String
  | .git e => s!"git error: {e.message}"
  | .bareRepository place =>
    s!"repository at {place.display} is bare; a work tree is required"
  | .io e => s!"I/O error: {e.message}"
  | .launch program e => s!"failed to launch {program}: {e.message}"

/-- What an error comes from. -/
def RunError.source? : RunError → Option String
  | .git e => some e.message
  | .bareRepository _ => none
  | .io e | .launch _ e => some e.message

structure Job (α : Type) where
  events : List Event
  result : Except RunError α

namespace Job

def pure {α : Type} (a : α) : Job α :=
  ⟨[], .ok a⟩

def bind {α β : Type} (job : Job α) (f : α → Job β) : Job β :=
  match job.result with
  | .ok a =>
    let next := f a
    ⟨job.events ++ next.events, next.result⟩
  | .error e => ⟨job.events, .error e⟩

instance : Monad Job where
  pure := pure
  bind := bind

def fail {α : Type} (e : RunError) : Job α :=
  ⟨[], .error e⟩

def tell (events : List Event) : Job Unit :=
  ⟨events, .ok ()⟩

def print (text : String) : Job Unit :=
  tell [.line text]

def logAll (records : List Log.Record) : Job Unit :=
  tell (records.map .record)

def log (level : Log.Level) (text : String) : Job Unit :=
  logAll [⟨level, text⟩]

def ofExcept {α ε : Type} (error : ε → RunError) : Except ε α → Job α
  | .ok a => pure a
  | .error e => fail (error e)

end Job

/-! ## What can be seen of a trail -/

def Event.output (t : Log.Threshold) : Event → Bytes
  | .line text => Bytes.ofText (text ++ "\n")
  | .record r => if t.allows r.level then Bytes.ofText r.line else []
  | .wrote .output bytes | .relayed (.bytes bytes) => bytes
  | _ => []

def Event.errorOutput : Event → Bytes
  | .wrote .error bytes => bytes
  | _ => []

def outputOf (t : Log.Threshold) (events : List Event) : Bytes :=
  events.flatMap (·.output t)

def errorOutputOf (events : List Event) : Bytes :=
  events.flatMap (·.errorOutput)

/-- The relayed part of a trail. -/
def arrivalsOf (events : List Event) : List Relay.Arrival :=
  events.filterMap fun
    | .relayed arrival => some arrival
    | _ => none

end LintRunner
