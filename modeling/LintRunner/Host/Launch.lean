import LintRunner.CommandLine
import LintRunner.Host.Basic

/-!
# Starting programs

A command is started in its own directory, and its program is looked for from
there: at the path it gives, or in the directories of the search path. A
directory without the program, or with one that may not be run, is passed over.
-/

namespace LintRunner.Host

def defaultSearchPath : Bytes := Bytes.ofText "/bin:/usr/bin"

/-- The program at a path. -/
def programAt (h : Host) (cwd : Place) (path : Path) : Except SystemError Program :=
  match h.files.nodeAt cwd path with
  | .ok (.program true program) => .ok program
  | .ok (.file _ true) => .error .notAProgram
  | .ok _ => .error .accessDenied
  | .error e => .error e

/-- Tries the paths in order. A refusal is kept for the case that no other path
has the program, and outweighs a path with nothing there. -/
def firstProgram (h : Host) (cwd : Place) (kept : SystemError) :
    List Path → Except SystemError Program
  | [] => .error kept
  | path :: rest =>
    match h.programAt cwd path with
    | .ok program => .ok program
    | .error e =>
      if e == .accessDenied then firstProgram h cwd e rest
      else if e == .notFound || e == .notADirectory then
        firstProgram h cwd (if kept == .accessDenied then kept else e) rest
      else .error e

def findProgram (h : Host) (cwd : Place) (name : Path) : Except SystemError Program :=
  if name.raw.isEmpty then .error .notFound
  else if name.raw.contains Bytes.slash then h.programAt cwd name
  else if FileTree.maxName < name.raw.length then .error .nameTooLong
  else
    let dirs := h.searchPath.getD defaultSearchPath
    h.firstProgram cwd .notFound
      ((Text.splitOn colon dirs).map fun dir => (Path.mk dir).join name)

/-- The place of a directory to start a program in. -/
def directoryAt (h : Host) (path : Path) : Except SystemError Place := do
  let place ← h.files.resolve h.cwd path
  match h.files.node place with
  | some .directory => return place
  | _ => throw .notADirectory

/-- What the command does, once it is started in its directory. -/
def launch (h : Host) (c : Command) : Except IoError Behaviour :=
  if c.spoiled then .error .nulInCommand
  else
    let started : Except SystemError Behaviour := do
      let cwd ← h.directoryAt c.dir
      let program ← h.findProgram cwd (.ofText c.program)
      return program c.args cwd
    started.mapError .system

end LintRunner.Host
