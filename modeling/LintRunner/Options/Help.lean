import LintRunner.Options.Reader
import LintRunner.Text.Plain

/-!
# Help and usage messages

Two layouts of the help: a short one with a column for the options, and a long
one with a block for each option. A usage message says what is wrong with the
arguments and, where it helps, which options they hold.
-/

namespace LintRunner

namespace Opt

def helpLines (long : Bool) : Opt → List String
  | .buildPath =>
    ["Path to the build directory. This is the directory holding the",
      "compile_commands.json database (set ``CMAKE_EXPORT_COMPILE_COMMANDS`` to ``ON``).",
      "Defaults to ``build`` under the repository root."]
  | .jobs => ["Number of threads run-clang-tidy should run in parallel."]
  | .exportFixes =>
    ["Path to the file where run-clang-tidy should store suggested fixes."]
  | .orchestrator => ["Name or path of the run-clang-tidy executable to use."]
  | .linter => ["Name or path of the clang-tidy executable to use."]
  | .fix => ["Attempt to fix the issues (passes ``-fix -format`` to run-clang-tidy)."]
  | .checkOutput =>
    ["Check output for warnings and errors and exit with a non-zero",
      "return code if such are found. Disables formatted output."]
  | .verbosity =>
    ["This controls the verbosity of this tool's own log output.",
      "It does not affect the output of run-clang-tidy."]
  | .repoRoot =>
    ["A path inside the repository to lint. The repository root is",
      "discovered from here by walking up to the enclosing git work tree."]
  | .ignoreFile =>
    ["The file (relative to the repository root) listing glob patterns of",
      "paths to skip, one per line. Lines starting with ``#`` are comments.",
      "A missing file means nothing is ignored."]
  | .clangVersion =>
    ["The desired version of the clang tools to use when the executables",
      "are left at their default names. Accepted values are a version number",
      "(eg ``17``) or a path to the directory where the clang tools are installed.",
      "",
      "- Set this option to a blank string (``''``) to use the",
      "  platform's default installed version."]
  | .dryRun => ["Print the run-clang-tidy command line instead of running it."]
  | .help =>
    if long then ["Print help (see a summary with '-h')"]
    else ["Print help (see more with '--help')"]

/-- The value of an option that is left out, as the help shows it. -/
def defaultText? : Opt → Option String
  | .orchestrator => some ({} : Options).orchestrator
  | .linter => some ({} : Options).linter
  | .verbosity => some ({} : Options).verbosity.name
  | .repoRoot => some ({} : Options).repoRoot.display
  | .ignoreFile => some ({} : Options).ignoreFile
  | .clangVersion => some "\"\""
  | _ => none

def choiceNote? (o : Opt) : Option String :=
  let choices := String.intercalate ", " o.choices
  if o.choices.isEmpty then none else some s!"[possible values: {choices}]"

def notes (o : Opt) : List String :=
  (o.defaultText?.map fun text => s!"[default: {text}]").toList ++ o.choiceNote?.toList

def spelling (o : Opt) : String :=
  let names :=
    match o.short?, o.long? with
    | some short, some long => s!"-{short}, --{long}"
    | some short, none => s!"-{short}"
    | none, some long => s!"    --{long}"
    | none, none => ""
  o.withValueName names

end Opt

def blanks (n : Nat) : String :=
  String.ofList (List.replicate n ' ')

namespace Help

def column : Nat :=
  (Opt.all.map (·.spelling.length)).foldl max 0

def shortEntry (o : Opt) : String :=
  let pad := blanks (column - o.spelling.length)
  let lines := o.helpLines false
  let text := String.intercalate s!"\n{blanks (column + 4)}" lines
  let text := String.intercalate " " (text :: o.notes)
  s!"  {o.spelling}{pad}  {text}\n"

def longEntry (o : Opt) : String :=
  let notes := if o.notes.isEmpty then [] else "" :: o.notes
  let lines := (o.helpLines true ++ notes).map fun line => s!"          {line}\n"
  s!"  {o.spelling}\n{String.join lines}"

def usageLine (program : String) (used : List Opt) : String :=
  let options := if used.isEmpty then ["[OPTIONS]"] else used.map Opt.display
  let line := String.intercalate " " (Text.plain program :: options)
  s!"Usage: {line}"

def text (program : String) (long : Bool) : String :=
  let entries :=
    if long then String.intercalate "\n" (Opt.all.map longEntry)
    else String.join (Opt.all.map shortEntry)
  let about := "Run clang-tidy on all currently committed C/C++ files"
  s!"{about}\n\n{usageLine program []}\n\nOptions:\n{entries}"

end Help

def NumberFault.message : NumberFault → String
  | .empty => "cannot parse integer from empty string"
  | .invalidDigit => "invalid digit found in string"
  | .tooLarge => "number too large to fit in target type"
  | .tooSmall => "number too small to fit in target type"
  | .outside n => s!"{n} is not in 0..={jobsBound - 1}"

namespace UsageError

def message : UsageError → String
  | .unknown arg _ _ => s!"unexpected argument '{Text.plain arg}' found"
  | .missingValue o => s!"a value is required for '{o.display}' but none was supplied"
  | .notAChoice o value =>
    if value.isEmpty then s!"a value is required for '{o.display}' but none was supplied"
    else s!"invalid value '{Text.plain value}' for '{o.display}'"
  | .notANumber o value why =>
    s!"invalid value '{Text.plain value}' for '{o.display}': {why.message}"
  | .repeated o => s!"the argument '{o.display}' cannot be used multiple times"
  | .unexpectedValue o value _ =>
    s!"unexpected value '{Text.plain value}' for '{o.display}' found; no more were expected"

def choiceLine (o : Opt) : String :=
  match o.choiceNote? with
  | some note => s!"\n  {note}"
  | none => ""

def details (program : String) : UsageError → String
  | .unknown _ meant used =>
    let tip :=
      match meant.bind Opt.long? with
      | some long => s!"\n\n  tip: a similar argument exists: '--{long}'"
      | none => ""
    s!"{tip}\n\n{Help.usageLine program used}"
  | .missingValue o => choiceLine o
  | .notAChoice o value =>
    let tip :=
      match Text.mostSimilar? value o.choices with
      | some choice => s!"\n\n  tip: a similar value exists: '{choice}'"
      | none => ""
    s!"{choiceLine o}{tip}"
  | .notANumber .. => ""
  | .repeated _ => s!"\n\n{Help.usageLine program []}"
  | .unexpectedValue _ _ used => s!"\n\n{Help.usageLine program used}"

def render (program : String) (e : UsageError) : String :=
  s!"error: {e.message}{e.details program}\n\nFor more information, try '--help'.\n"

end UsageError

/-- The name that messages give the program: the file name it was called by. -/
def programName (args : List String) : String :=
  match args.head?.bind fun arg => (Path.ofText arg).fileName?.bind Bytes.text? with
  | some name => name
  | none => "tidy-runner"

end LintRunner
