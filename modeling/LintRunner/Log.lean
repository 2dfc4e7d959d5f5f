/-!
# Log records

What the runner says about its own work: one line for each record, with the
level in front. A threshold decides which levels are said at all.
-/

namespace LintRunner.Log

inductive Level
  | debug
  | info
  | warn
deriving DecidableEq, Repr

def Level.name : Level → String
  | .debug => "DEBUG"
  | .info => "INFO"
  | .warn => "WARN"

structure Record where
  level : Level
  text : String
deriving DecidableEq, Repr

def Record.line (r : Record) : String :=
  s!"{r.level.name}: {r.text}\n"

inductive Threshold
  | off
  | info
  | debug
deriving DecidableEq, Repr

def Threshold.allows : Threshold → Level → Bool
  | .off, _ => false
  | .info, level => level != .debug
  | .debug, _ => true

/-- Debug records are said if the user or the machine that runs the job asks
for them. -/
def Threshold.choose (verbosity : String) (stepDebug : Option String) : Threshold :=
  if verbosity == "debug" || stepDebug == some "true" then .debug else .info

def Threshold.render (t : Threshold) (records : List Record) : String :=
  String.join ((records.filter fun r => t.allows r.level).map Record.line)

end LintRunner.Log
