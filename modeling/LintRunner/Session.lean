import LintRunner.CompilationDatabase
import LintRunner.Ignore.List
import LintRunner.Options.Help
import LintRunner.Orchestrator
import LintRunner.Relay.Writer
import LintRunner.Repository.Discovery
import LintRunner.ToolSearch

/-!
# A whole run

The committed sources of the repository that are not ignored are handed to the
orchestrator, which starts at the root of the work tree. All that the runner
says on the way leaves the command untouched.
-/

namespace LintRunner

namespace Host

/-! ## Steps -/

/-- The list of an ignore file; without the file nothing is ignored. -/
def readIgnoreList (h : Host) (path : Path) : Job IgnoreList :=
  match h.files.readText h.cwd path with
  | .ok content => do
    let patterns := IgnoreList.patternsOf (Utf8.decodeLossy content)
    Job.logAll (IgnoreList.warnings patterns)
    if !patterns.isEmpty then
      Job.logAll (⟨.info, "Ignored:"⟩ :: patterns.map fun p => ⟨.info, s!"  {p}"⟩)
    return IgnoreList.ofPatterns patterns
  | .error (.system .notFound) => do
    Job.log .debug s!"No ignore file found at {path.display}"
    return IgnoreList.empty
  | .error e => Job.fail (.io e)

def databaseName : String := "compile_commands.json"

/-- Says which files the compilation database of a build directory leaves out,
or why it cannot be read. -/
def databaseRecords (h : Host) (buildPath root : Path) (files : List String) :
    List Log.Record :=
  let path := buildPath.join (.ofText databaseName)
  match h.files.readText h.cwd path with
  | .error e =>
    [⟨.warn, s!"Could not read {path.display} ({e.message}); run-clang-tidy will likely fail"⟩]
  | .ok content =>
    match CompilationDatabase.ofJson content with
    | .error fault =>
      let message := fault.message content
      [⟨.warn, s!"Could not parse {path.display}: {message}"⟩]
    | .ok db =>
      ⟨.debug, s!"{path.display} lists {db.size} translation units"⟩ ::
        (db.missing root files).map fun name =>
          ⟨.debug, s!"{name} has no entry in {databaseName}"⟩

/-- Says which version a tool is, by what it prints itself. Nothing is started
unless that would be said. -/
def sayVersion (h : Host) (t : Log.Threshold) (tool : String) : Job Unit :=
  if t != .debug then return ()
  else
    match Command.ofWords? [tool, "--version"] h.cwdPath with
    | none => return ()
    | some c =>
      match h.launch c with
      | .ok behaviour => do
        Job.tell [.started c, .waited]
        let output := (behaviour.written .output).lossy
        Job.log .debug s!"{tool} --version\n{output}"
      | .error e => Job.log .debug s!"Could not run {tool} --version: {e.message}"

/-- A program given as a path is taken as seen from the caller. -/
def absolutizeProgram (h : Host) (program : String) : String :=
  if program.toList.contains '/' then
    ((Path.ofText program).absolutize h.cwdPath).display
  else program

/-! ## The run -/

def groupStart : String := "::group::Get list of committed source files"
def groupEnd : String := "::endgroup::"

/-- What is to be linted: the root of the work tree, and the files. -/
structure Selection where
  root : Path
  files : List String

def select (h : Host) (o : Options) : Job Selection := do
  Job.print groupStart
  let checkout ← Job.ofExcept .git (h.discover (o.repoRoot.absolutize h.cwdPath))
  match checkout.workTree? with
  | none => Job.fail (.bareRepository (Checkout.directoryPath checkout.place))
  | some root =>
    let root := root.normalize
    Job.log .debug s!"Repository root: {root.display}"
    let (records, committed) := checkout.repository.committedFiles
    Job.logAll records
    let committed ← Job.ofExcept .git committed
    let ignored ← h.readIgnoreList (root.join (.ofText o.ignoreFile))
    Job.logAll (ignored.reports committed)
    let files := ignored.keepSources committed
    Job.log .info "Giving attention to the following files:"
    Job.logAll (files.map fun file => ⟨.info, s!"  ./{file}"⟩)
    Job.print groupEnd
    return ⟨root, files⟩

def buildPath (h : Host) (o : Options) (root : Path) : Path :=
  match o.buildPath with
  | some path => path.absolutize h.cwdPath
  | none => root.join (.ofText "build")

/-- The program to start for a tool of the given default name. -/
def program (h : Host) (o : Options) (configured default : String) :
    String × List Log.Record :=
  let (program, records) := h.resolveTool configured default o.clangVersion
  (h.absolutizeProgram program, records)

/-- The words of the command, and the directory it starts in. -/
def prepare (h : Host) (t : Log.Threshold) (o : Options) : Job (List String × Path) := do
  let selection ← h.select o
  let buildPath := h.buildPath o selection.root
  Job.logAll (h.databaseRecords buildPath selection.root selection.files)
  let (orchestrator, records) := h.program o o.orchestrator defaultOrchestrator
  Job.logAll records
  let (linter, records) := h.program o o.linter defaultLinter
  Job.logAll records
  h.sayVersion t linter
  let exportFixes := o.exportFixes.map fun path =>
    ((Path.ofText path).absolutize h.cwdPath).display
  let words :=
    commandLine { o with exportFixes } orchestrator linter buildPath selection.files
  return (words, selection.root)

def threshold (h : Host) (o : Options) : Log.Threshold :=
  .choose o.verbosity.name h.stepDebug

/-- The whole run; its value is the exit code. -/
def run (h : Host) (sink : Relay.Sink) (o : Options) : Job Int := do
  let (words, root) ← h.prepare (h.threshold o) o
  if o.dryRun then
    Job.print (String.intercalate " " words)
    return 0
  else
    match Command.ofWords? words root with
    | none => return 0
    | some c => if o.checkOutput then h.checkOutput sink c else h.passThrough c

end Host

/-! ## The program -/

/-- What the caller sees when the program has ended. -/
structure Answer where
  code : Int
  output : Bytes
  errorOutput : Bytes

def indent (text : String) : String :=
  String.ofList (text.toList.flatMap fun c => if c == '\n' then "\n    ".toList else [c])

/-- The report about an error that ends the program. -/
def RunError.report (e : RunError) : String :=
  match e.source? with
  | none => s!"Error: {e.message}\n"
  | some source => s!"Error: {e.message}\n\nCaused by:\n    {indent source}\n"

/-- What the program does for an argument list, program name first. -/
def Host.answer (h : Host) (args : List String) : Answer :=
  let args := doubleDashes args
  match Options.ofArgs args.tail with
  | .error (.help long) =>
    ⟨0, Bytes.ofText (Help.text (programName args) long), []⟩
  | .error (.usage e) => ⟨2, [], Bytes.ofText (e.render (programName args))⟩
  | .ok o =>
    let job := h.run {} o
    let output := outputOf (h.threshold o) job.events
    let errors := errorOutputOf job.events
    match job.result with
    | .ok code => ⟨code, output, errors⟩
    | .error e => ⟨1, output, errors ++ Bytes.ofText e.report⟩

end LintRunner
