import LintRunner.Options.Basic

/-!
# The orchestrator's command line

The words that start the orchestrator, program first and files last, and the
command made of them for a working directory.
-/

namespace LintRunner

def commandLine (options : Options) (orchestrator linter : String) (buildPath : Path)
    (files : List String) : List String :=
  [orchestrator, "-p", buildPath.display, "-clang-tidy", linter] ++
    (match options.jobs with
      | some n => ["-j", toString n.toNat]
      | none => []) ++
    (match options.exportFixes with
      | some path => ["-export-fixes", path]
      | none => []) ++
    (if options.fix then ["-fix", "-format"] else []) ++
    files

/-- A program to start, its arguments, and the directory to start it in. No
word of a command can hold a NUL; `spoiled` tells that one did. -/
structure Command where
  program : String
  args : List String
  dir : Path
  spoiled : Bool := false
deriving DecidableEq, Repr

namespace Command

/-- Stands for a word that holds a NUL. -/
def spoiledWord : String := "<string-with-nul>"

def holdsNul (bytes : Bytes) : Bool :=
  bytes.contains 0

def word (text : String) : String :=
  if text.toList.contains '\x00' then spoiledWord else text

def ofWords? (words : List String) (dir : Path) : Option Command :=
  match words with
  | [] => none
  | program :: args =>
    some {
      program := word program
      args := args.map word
      dir := if holdsNul dir.raw then .ofText spoiledWord else dir
      spoiled := words.any (·.toList.contains '\x00') || holdsNul dir.raw }

end Command

end LintRunner
