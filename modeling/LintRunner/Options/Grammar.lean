import LintRunner.Options.Basic

/-!
# How options are spelled

Each option has a long name, a one-letter name, or both, and most take a value.
-/

namespace LintRunner

inductive Opt
  | buildPath
  | jobs
  | exportFixes
  | orchestrator
  | linter
  | fix
  | checkOutput
  | verbosity
  | repoRoot
  | ignoreFile
  | clangVersion
  | dryRun
  | help
deriving DecidableEq, Repr

namespace Opt

def all : List Opt :=
  [.buildPath, .jobs, .exportFixes, .orchestrator, .linter, .fix, .checkOutput,
    .verbosity, .repoRoot, .ignoreFile, .clangVersion, .dryRun, .help]

def long? : Opt → Option String
  | .buildPath | .jobs => none
  | .exportFixes => some "export-fixes"
  | .orchestrator => some "run-clang-tidy"
  | .linter => some "clang-tidy"
  | .fix => some "fix"
  | .checkOutput => some "check-output"
  | .verbosity => some "verbosity"
  | .repoRoot => some "repo-root"
  | .ignoreFile => some "ignore-file"
  | .clangVersion => some "clang-version"
  | .dryRun => some "dry-run"
  | .help => some "help"

def short? : Opt → Option Char
  | .buildPath => some 'p'
  | .jobs => some 'j'
  | .verbosity => some 'v'
  | .repoRoot => some 'r'
  | .ignoreFile => some 'i'
  | .clangVersion => some 'V'
  | .help => some 'h'
  | _ => none

/-- What the help calls the value; `none` for an option without one. -/
def valueName? : Opt → Option String
  | .buildPath => some "BUILD_PATH"
  | .jobs => some "THREADS"
  | .exportFixes | .orchestrator | .linter => some "PATH"
  | .verbosity => some "verbosity"
  | .repoRoot => some "repo-root"
  | .ignoreFile => some "ignore-file"
  | .clangVersion => some "clang-version"
  | .fix | .checkOutput | .dryRun | .help => none

def takesValue (o : Opt) : Bool :=
  o.valueName?.isSome

/-- The values to choose from, where not every text will do. -/
def choices : Opt → List String
  | .verbosity => [Verbosity.debug.name, Verbosity.info.name]
  | _ => []

def withValueName (o : Opt) (name : String) : String :=
  match o.valueName? with
  | some value => s!"{name} <{value}>"
  | none => name

/-- The option in messages: by its long name if it has one. -/
def display (o : Opt) : String :=
  match o.long?, o.short? with
  | some long, _ => o.withValueName s!"--{long}"
  | none, some short => o.withValueName s!"-{short}"
  | none, none => ""

def longNames : List String :=
  all.filterMap long?

def ofLong? (name : String) : Option Opt :=
  all.find? (·.long? == some name)

def ofShort? (c : Char) : Option Opt :=
  all.find? (·.short? == some c)

end Opt

/-- A long name may stand behind one dash as well as behind two. -/
def doubleDash (arg : String) : String :=
  match arg.toList with
  | '-' :: '-' :: _ => arg
  | '-' :: name =>
    if Opt.longNames.contains (String.ofList (name.takeWhile (· != '='))) then
      "-" ++ arg
    else arg
  | _ => arg

def doubleDashes (args : List String) : List String :=
  args.map doubleDash

end LintRunner
