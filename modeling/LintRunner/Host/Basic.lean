import LintRunner.Host.FileTree
import LintRunner.Repository.Basic

/-!
# Hosts

The machine that a run happens on: its files, the repositories among them, the
directory of the caller, and what the environment says.

An executable is found by its name. A name that is a path by itself is looked at
where it leads. Any other is looked for in a list of directories, and the first
executable file wins.
-/

namespace LintRunner

/-- A repository stands at the place of its own directory, which is `.git` in
the work tree unless the repository is bare. -/
structure Host where
  files : FileTree
  repositories : Place → Option Repository
  cwd : Place
  searchPath : Option Bytes
  home : Option Bytes
  stepDebug : Option String

namespace Host

def cwdPath (h : Host) : Path :=
  h.cwd.path

def withRepository (h : Host) (place : Place) (r : Repository) : Host :=
  { h with
    repositories := fun other => if other == place then some r else h.repositories other }

/-! ## Finding executables -/

def colon : UInt8 := 0x3A
def tilde : UInt8 := 0x7E

/-- A directory of the list; a leading `~` is the home directory. -/
def expandHome (h : Host) (dir : Path) : Path :=
  match dir.components with
  | .name [b] :: rest =>
    if b == tilde then
      rest.foldl
        (fun path c =>
          match c with
          | .name bytes => path.join ⟨bytes⟩
          | .parent => path.join ⟨[Bytes.dot, Bytes.dot]⟩
          | _ => path)
        ⟨h.home.getD []⟩
    else dir
  | _ => dir

/-- The directories of a list. An empty entry is the directory of the caller, also
where it is the only one, as in an empty list. Without a list there are none. -/
def directories (h : Host) : Option Bytes → List Path
  | none => []
  | some dirs => (Text.splitOn colon dirs).map fun dir => h.expandHome ⟨dir⟩

/-- The paths at which a name may stand, in the order of the directories. -/
def candidates (h : Host) (name : Path) (dirs : Option Bytes) : List Path :=
  (h.directories dirs).map (·.join name)

def isPath (name : Path) : Bool :=
  1 < name.components.length

/-- The executable file of this name. It is given as its directory is written,
so it may be a path as seen from the caller. -/
def find? (h : Host) (name : Path) (dirs : Option Bytes) : Option Path :=
  if isPath name then
    let path := h.cwdPath.join name
    if h.files.isExecutable h.cwd path then some path else none
  else
    (h.candidates name dirs).find? fun path => h.files.isExecutable h.cwd path

end Host

end LintRunner
