import LintRunner.Host.IoError
import LintRunner.Text.Utf8

/-!
# Programs

A program that is started writes to its two streams, in some order, and then
ends by itself or by a signal. What it does may depend on its arguments and on
the directory it runs in.
-/

namespace LintRunner

inductive Stream
  | output
  | error
deriving DecidableEq, Repr

inductive Ending
  | exited (code : UInt8)
  | signaled (signal : Nat)
deriving DecidableEq, Repr

/-- Whoever started a program may fail to kill it or to wait for it. -/
structure Behaviour where
  writes : List (Stream × Bytes)
  ending : Ending
  killFailure : Option IoError := none
  waitFailure : Option IoError := none
deriving DecidableEq, Repr

abbrev Program := List String → List Bytes → Behaviour

def Behaviour.written (b : Behaviour) (stream : Stream) : Bytes :=
  (b.writes.filter (·.1 == stream)).flatMap (·.2)

/-- The exit code, which a program ended by a signal does not have. -/
def Ending.code? : Ending → Option Int
  | .exited code => some code.toNat
  | .signaled _ => none

def signalNames : List (Nat × String) :=
  [(1, "SIGHUP"), (2, "SIGINT"), (3, "SIGQUIT"), (4, "SIGILL"), (5, "SIGTRAP"),
    (6, "SIGABRT"), (7, "SIGBUS"), (8, "SIGFPE"), (9, "SIGKILL"), (10, "SIGUSR1"),
    (11, "SIGSEGV"), (12, "SIGUSR2"), (13, "SIGPIPE"), (14, "SIGALRM"),
    (15, "SIGTERM"), (16, "SIGSTKFLT"), (17, "SIGCHLD"), (18, "SIGCONT"),
    (19, "SIGSTOP"), (20, "SIGTSTP"), (21, "SIGTTIN"), (22, "SIGTTOU"),
    (23, "SIGURG"), (24, "SIGXCPU"), (25, "SIGXFSZ"), (26, "SIGVTALRM"),
    (27, "SIGPROF"), (28, "SIGWINCH"), (29, "SIGIO"), (30, "SIGPWR"), (31, "SIGSYS")]

def Ending.text : Ending → String
  | .exited code => s!"exit status: {code.toNat}"
  | .signaled n =>
    match signalNames.lookup n with
    | some name => s!"signal: {n} ({name})"
    | none => s!"signal: {n}"

end LintRunner
