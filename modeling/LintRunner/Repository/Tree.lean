import LintRunner.Log
import LintRunner.Text.Utf8

/-!
# Committed trees

A tree holds files and directories by name. The names of one directory stand
in the order of their bytes, where a directory counts as if its name ended in
a slash. A walk in that order gives the paths of all files.
-/

namespace LintRunner

inductive FileKind
  | regular
  | executable
  | symlink
  | submodule
deriving DecidableEq, Repr

/-- The entries of one directory, first to last. -/
inductive Tree
  | nil
  | file (name : Bytes) (kind : FileKind) (rest : Tree)
  | directory (name : Bytes) (content : Tree) (rest : Tree)
deriving DecidableEq, Repr

namespace Tree

open Bytes (slash)

/-- Puts a file where the order wants it, in place of one with its name. -/
def putFile (name : Bytes) (kind : FileKind) : Tree → Tree
  | .nil => .file name kind .nil
  | .file n k rest =>
    if n == name then .file name kind rest
    else if name < n then .file name kind (.file n k rest)
    else .file n k (putFile name kind rest)
  | .directory n content rest =>
    if name < n ++ [slash] then .file name kind (.directory n content rest)
    else .directory n content (putFile name kind rest)

/-- Changes the content of a directory, which is made if it is missing. -/
def inDirectory (name : Bytes) (change : Tree → Tree) : Tree → Tree
  | .nil => .directory name (change .nil) .nil
  | .file n k rest =>
    if name ++ [slash] < n then .directory name (change .nil) (.file n k rest)
    else .file n k (inDirectory name change rest)
  | .directory n content rest =>
    if n == name then .directory n (change content) rest
    else if name ++ [slash] < n ++ [slash] then
      .directory name (change .nil) (.directory n content rest)
    else .directory n content (inDirectory name change rest)

/-- Puts a file at the end of a list of names. -/
def insert (kind : FileKind) : List Bytes → Tree → Tree
  | [], tree => tree
  | [name], tree => tree.putFile name kind
  | name :: names, tree => tree.inDirectory name (insert kind names)

/-- What a walk comes by: the path of a file, or a file that is left out
because its name is no text. -/
inductive Visit
  | file (path : String)
  | skipped (shown : String)
deriving DecidableEq, Repr

/-- The visit of an entry that is no directory. A submodule is no file. -/
def visit (parent : String) (name : Bytes) : FileKind → List Visit
  | .submodule => []
  | _ =>
    match name.text? with
    | some name => [.file (parent ++ name)]
    | none => [.skipped (parent ++ name.lossy)]

/-- The visits in order, and whether the walk came to its end. It stops at the
first entry of a directory whose path is no text. -/
def walk (parent : Bytes) : Tree → List Visit × Bool
  | .nil => ([], true)
  | .file name kind rest =>
    match parent.text? with
    | none => ([], false)
    | some shown =>
      let (visits, complete) := walk parent rest
      (visit shown name kind ++ visits, complete)
  | .directory name content rest =>
    match parent.text? with
    | none => ([], false)
    | some _ =>
      match walk (parent ++ name ++ [slash]) content with
      | (visits, false) => (visits, false)
      | (visits, true) =>
        let (more, complete) := walk parent rest
        (visits ++ more, complete)

def Visit.path? : Visit → Option String
  | .file path => some path
  | .skipped _ => none

def Visit.warning? : Visit → Option Log.Record
  | .file _ => none
  | .skipped shown => some ⟨.warn, s!"Skipping {shown}: file name is not valid UTF-8"⟩

end Tree

end LintRunner
