import LintRunner.Host.Launch
import LintRunner.Job

/-!
# Running the orchestrator

Either the orchestrator writes straight to the caller's streams and its exit
code is the answer, or both of its streams are merged, relayed line by line,
and searched for diagnostics.
-/

namespace LintRunner

def Command.announcement (c : Command) : String :=
  let args := String.intercalate " " c.args
  s!"Running \"{c.program} {args}\""

namespace Host

/-- Starts a command, and gives what it does. -/
def start (h : Host) (c : Command) : Job Behaviour := do
  Job.log .info c.announcement
  let behaviour ← Job.ofExcept (.launch c.program) (h.launch c)
  Job.tell [.started c]
  return behaviour

/-- The exit code of the command; one for a command ended by a signal. -/
def passThrough (h : Host) (c : Command) : Job Int := do
  let behaviour ← h.start c
  Job.tell (behaviour.writes.map fun (stream, bytes) => .wrote stream bytes)
  Job.tell [.waited]
  match behaviour.waitFailure with
  | some e => Job.fail (.launch c.program e)
  | none =>
    match behaviour.ending.code? with
    | some code => return code
    | none =>
      Job.log .warn s!"{c.program} was terminated by a signal"
      return 1

/-- Kills a command; a failure is only told. -/
def kill (behaviour : Behaviour) : Job Unit := do
  Job.tell [.killed]
  match behaviour.killFailure with
  | some e => Job.log .debug s!"Could not kill run-clang-tidy: {e.message}"
  | none => return ()

/-- Waits for a command to end. -/
def wait (behaviour : Behaviour) : Job Unit := do
  Job.tell [.waited]
  match behaviour.waitFailure with
  | some e => Job.fail (.io e)
  | none => return ()

/-- Relays what is read of the pipe that the command writes to, and decides the exit
code by it. A command whose output cannot be relayed is killed. -/
def checkPipe {σ : Type} [Relay.Writer σ] (h : Host) (pipe : Behaviour → List Relay.Read)
    (sink : σ) (c : Command) : Job Int := do
  let behaviour ← h.start c
  let (arrivals, result) := Relay.scan sink (pipe behaviour)
  Job.tell (arrivals.map .relayed)
  match result with
  | .error e =>
    kill behaviour
    wait behaviour
    Job.fail (.io e)
  | .ok found =>
    wait behaviour
    Job.log .debug s!"run-clang-tidy exited with {behaviour.ending.text}"
    return Relay.exitCode behaviour.ending.code? found

/-- The pipe hands out each write by itself, and no read of it fails. -/
def checkOutput {σ : Type} [Relay.Writer σ] (h : Host) (sink : σ) (c : Command) : Job Int :=
  h.checkPipe (fun behaviour => behaviour.writes.map fun (_, bytes) => .piece bytes) sink c

end Host

end LintRunner
