import LintRunner.CommandLine
import LintRunner.Proofs.Arguments
import LintRunner.Proofs.Lexical
import LintRunner.Proofs.Selection

/-!
# Reading the command line back

The command line has up to three groups of two words before the files, and any of them
may be missing. What stands in a group is not looked at, so it may look like the mark of
another one. A file that ends in one of the eight extensions is no mark, and so it is
always plain where the groups end: each part can be read off the words.
-/

namespace LintRunner.CommandLine

/-! ## Groups -/

/-- A mark and what stands behind it, or nothing. -/
def group (mark : String) : Option String → List String
  | some value => [mark, value]
  | none => []

/-- Takes a group off the words if they begin with its mark. -/
def takeGroup (mark : String) : List String → Option String × List String
  | word :: value :: rest =>
    if word = mark then (some value, rest) else (none, word :: value :: rest)
  | words => (none, words)

variable {mark other : String} {rest : List String}

/-- A group that is missing is not found in the words behind it. -/
theorem takeGroup_of_unmarked (h : rest.head? ≠ some mark) :
    takeGroup mark rest = (none, rest) := by
  unfold takeGroup
  split
  · rename_i word value rest
    rw [if_neg fun hword => h (congrArg some hword)]
  · rfl

theorem takeGroup_group (value : Option String) (h : rest.head? ≠ some mark) :
    takeGroup mark (group mark value ++ rest) = (value, rest) := by
  cases value with
  | some value => exact if_pos rfl
  | none => exact takeGroup_of_unmarked h

theorem head?_group_append (value : Option String) (hne : other ≠ mark)
    (h : rest.head? ≠ some mark) : (group other value ++ rest).head? ≠ some mark := by
  cases value with
  | some value => exact fun hhead => hne (Option.some.inj hhead)
  | none => exact h

/-! ## The parts of a command line -/

/-- All that a command line is made of. -/
structure Parts where
  orchestrator : String
  linter : String
  buildPath : Path
  jobs : Option UInt32
  exportFixes : Option String
  fix : Bool
  files : List String
deriving DecidableEq, Repr

def parts (options : Options) (orchestrator linter : String) (buildPath : Path)
    (files : List String) : Parts where
  orchestrator := orchestrator
  linter := linter
  buildPath := buildPath
  jobs := options.jobs
  exportFixes := options.exportFixes
  fix := options.fix
  files := files

/-- Reads the words of a command line from the front to the back. -/
def read (words : List String) : Option Parts :=
  match words with
  | orchestrator :: _ :: buildPath :: _ :: linter :: words =>
    let (jobs, words) := takeGroup "-j" words
    let (exportFixes, words) := takeGroup "-export-fixes" words
    let (format, files) := takeGroup "-fix" words
    some {
      orchestrator
      linter
      buildPath := .ofText buildPath
      jobs := jobs.bind fun n => (readJobs n).toOption
      exportFixes
      fix := format.isSome
      files }
  | _ => none

variable {options options' : Options} {orchestrator orchestrator' linter linter' : String}
  {buildPath buildPath' : Path} {files files' : List String}

theorem commandLine_eq_groups :
    commandLine options orchestrator linter buildPath files =
      orchestrator :: "-p" :: buildPath.display :: "-clang-tidy" :: linter ::
        (group "-j" (options.jobs.map fun n => toString n.toNat) ++
          (group "-export-fixes" options.exportFixes ++
            (group "-fix" (if options.fix then some "-format" else none) ++ files))) := by
  unfold commandLine
  cases options.jobs <;> cases options.exportFixes <;> cases options.fix <;> rfl

/-- Source files end the groups, since no mark has the name of one. -/
theorem head?_ne_of_isSourceFile (hfiles : ∀ file ∈ files, isSourceFile file = true)
    (hmark : isSourceFile mark = false) : files.head? ≠ some mark := by
  intro hhead
  rw [hfiles mark (List.mem_of_head? hhead)] at hmark
  cases hmark

theorem read_commandLine (hfiles : ∀ file ∈ files, isSourceFile file = true)
    (hbuild : buildPath.IsText) :
    read (commandLine options orchestrator linter buildPath files) =
      some (parts options orchestrator linter buildPath files) := by
  have hfix : files.head? ≠ some "-fix" := head?_ne_of_isSourceFile hfiles (by decide)
  have hexport : (group "-fix" (if options.fix then some "-format" else none) ++ files).head? ≠
      some "-export-fixes" :=
    head?_group_append _ (by decide) (head?_ne_of_isSourceFile hfiles (by decide))
  have hjobs : (group "-export-fixes" options.exportFixes ++
      (group "-fix" (if options.fix then some "-format" else none) ++ files)).head? ≠
        some "-j" := by
    apply head?_group_append _ (by decide)
    apply head?_group_append _ (by decide)
    exact head?_ne_of_isSourceFile hfiles (by decide)
  have hnumber : ((options.jobs.map fun n => toString n.toNat).bind fun n =>
      (readJobs n).toOption) = options.jobs := by
    cases options.jobs with
    | none => rfl
    | some n => exact congrArg Except.toOption (readJobs_toString n)
  have hformat : (if options.fix then some "-format" else none : Option String).isSome =
      options.fix := by
    cases options.fix <;> rfl
  rw [commandLine_eq_groups, read]
  simp only [takeGroup_group _ hjobs, takeGroup_group _ hexport, takeGroup_group _ hfix]
  rw [hnumber, hformat, Path.ofText_display hbuild]
  rfl

theorem isSourceFile_of_mem_keepSources {list : IgnoreList} {names : List String} {file : String}
    (h : file ∈ list.keepSources names) : isSourceFile file = true := by
  have hkept := (List.mem_filter.mp h).2
  rw [Bool.and_eq_true] at hkept
  exact hkept.1

/-- Two command lines are the same words only if they are made of the same parts, whatever
the words look like, as long as the files are source files. The files that an ignore list
leaves always are. -/
theorem commandLine_eq_iff (hfiles : ∀ file ∈ files, isSourceFile file = true)
    (hfiles' : ∀ file ∈ files', isSourceFile file = true) (hbuild : buildPath.IsText)
    (hbuild' : buildPath'.IsText) :
    (commandLine options orchestrator linter buildPath files =
        commandLine options' orchestrator' linter' buildPath' files' ↔
      orchestrator = orchestrator' ∧ linter = linter' ∧ buildPath = buildPath' ∧
        options.jobs = options'.jobs ∧ options.exportFixes = options'.exportFixes ∧
        options.fix = options'.fix ∧ files = files') ∧
    ∀ (list : IgnoreList) (names : List String), ∀ file ∈ list.keepSources names,
      isSourceFile file = true := by
  refine ⟨?_, fun list names file => isSourceFile_of_mem_keepSources⟩
  constructor
  · intro hwords
    have hparts : some (parts options orchestrator linter buildPath files) =
        some (parts options' orchestrator' linter' buildPath' files') := by
      rw [← read_commandLine hfiles hbuild, ← read_commandLine hfiles' hbuild', hwords]
    injection hparts with hparts
    injection hparts with horchestrator hlinter hpath hjobs hexport hfix hlist
    exact ⟨horchestrator, hlinter, hpath, hjobs, hexport, hfix, hlist⟩
  · rintro ⟨rfl, rfl, rfl, hjobs, hexport, hfix, rfl⟩
    rw [commandLine_eq_groups, commandLine_eq_groups, hjobs, hexport, hfix]

/-- A list of any words could hold a group of its own. -/
example : commandLine {} "o" "l" (.ofText "b") ["-fix", "-format", "a.c"] =
    commandLine { fix := true } "o" "l" (.ofText "b") ["a.c"] := rfl

/-! The file for the fixes has the name of a mark, and so has a directory. -/

def lookalike : Options where
  exportFixes := some "-fix"
  fix := true

theorem commandLine_of_lookalikes :
    commandLine lookalike "-j" "-p" (.ofText "-fix") ["-j/a.c", "-format.c"] =
        ["-j", "-p", "-fix", "-clang-tidy", "-p", "-export-fixes", "-fix", "-fix", "-format",
          "-j/a.c", "-format.c"] ∧
      commandLine lookalike "-j" "-p" (.ofText "-fix") ["-j/a.c", "-format.c"] ≠
        commandLine { lookalike with exportFixes := none } "-j" "-p" (.ofText "-fix")
          ["-export-fixes/-fix.c", "-j/a.c", "-format.c"] := by
  refine ⟨by decide, ?_⟩
  intro hwords
  have hparts := (commandLine_eq_iff (by decide) (by decide) (Path.isText_ofText _)
    (Path.isText_ofText _)).1.mp hwords
  obtain ⟨-, -, -, -, hexport, -⟩ := hparts
  cases hexport

end LintRunner.CommandLine
