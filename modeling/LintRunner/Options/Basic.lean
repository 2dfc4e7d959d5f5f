import LintRunner.Path

/-!
# Options

What a caller can choose for one run, with the value of every option that is
left out.
-/

namespace LintRunner

inductive Verbosity
  | debug
  | info
deriving DecidableEq, Repr

def Verbosity.name : Verbosity → String
  | .debug => "debug"
  | .info => "info"

/-- The program that spreads the work, and the linter it calls, are looked up
only under these names. -/
def defaultOrchestrator : String := "run-clang-tidy"

def defaultLinter : String := "clang-tidy"

/-- Without a build path the runner takes the directory `build` of the work
tree; without a number of jobs the orchestrator picks one. -/
structure Options where
  buildPath : Option Path := none
  jobs : Option UInt32 := none
  exportFixes : Option String := none
  orchestrator : String := defaultOrchestrator
  linter : String := defaultLinter
  fix : Bool := false
  checkOutput : Bool := false
  verbosity : Verbosity := .info
  repoRoot : Path := .ofText "."
  ignoreFile : String := ".clang-tidy.ignore"
  clangVersion : String := ""
  dryRun : Bool := false
deriving DecidableEq, Repr, Inhabited

end LintRunner
