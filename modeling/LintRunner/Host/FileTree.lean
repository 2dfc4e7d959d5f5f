import LintRunner.Host.IoError
import LintRunner.Host.Program
import LintRunner.Path

/-!
# Files

A file tree says what stands at a place. A place is the list of names that
lead to it from the root, with no links in between; a path leads to a place by
way of directories and links.
-/

namespace LintRunner

abbrev Place := List Bytes

/-- A path to the place. -/
def Place.path (place : Place) : Path :=
  (Path.Resolved.mk true place).path

inductive Node
  | directory
  | file (content : Bytes) (executable : Bool)
  | program (executable : Bool) (program : Program)
  | link (target : Path)

structure FileTree where
  node : Place → Option Node

namespace FileTree

def maxName : Nat := 255
def maxPath : Nat := 4095

/-- Follows the segments from a place on. `follow` goes on behind a link. -/
def walkWith (files : FileTree) (follow : Place → Path → Except SystemError Place)
    (here : Place) : List Bytes → Except SystemError Place
  | [] => .ok here
  | segment :: rest =>
    match files.node here with
    | some .directory =>
      if segment.isEmpty || segment == [Bytes.dot] then walkWith files follow here rest
      else if segment == [Bytes.dot, Bytes.dot] then
        walkWith files follow here.dropLast rest
      else if maxName < segment.length then .error .nameTooLong
      else
        let place := here ++ [segment]
        match files.node place with
        | none => .error .notFound
        | some (.link target) =>
          match follow here target with
          | .ok place => walkWith files follow place rest
          | .error e => .error e
        | some _ => walkWith files follow place rest
    | _ => .error .notADirectory

/-- The place that a path leads to through at most `links` nested links. -/
def walk (files : FileTree) : Nat → Place → Path → Except SystemError Place
  | 0, _, _ => .error .tooManyLinks
  | links + 1, here, path =>
    if path.raw.isEmpty then .error .notFound
    else if maxPath < path.raw.length then .error .nameTooLong
    else
      let start := if path.isAbsolute then [] else here
      files.walkWith (files.walk links) start path.segments

def maxLinks : Nat := 40

/-- The place that the path leads to, as seen from a directory. -/
def resolve (files : FileTree) (cwd : Place) (path : Path) : Except SystemError Place :=
  files.walk (maxLinks + 1) cwd path

def nodeAt (files : FileTree) (cwd : Place) (path : Path) : Except SystemError Node := do
  match files.node (← files.resolve cwd path) with
  | some node => return node
  | none => throw .notFound

def read (files : FileTree) (cwd : Place) (path : Path) : Except IoError Bytes :=
  if path.raw.contains 0 then .error .nulInPath
  else
    match files.nodeAt cwd path with
    | .ok (.file content _) => .ok content
    | .ok .directory => .error (.system .isADirectory)
    | .ok _ => .ok []
    | .error e => .error (.system e)

/-- The content of a file that is a text, as bytes. -/
def readText (files : FileTree) (cwd : Place) (path : Path) : Except IoError Bytes := do
  let content ← files.read cwd path
  if (Utf8.decode? content).isSome then return content else throw .notUtf8

/-- Whether the path leads to a file that may be run. -/
def isExecutable (files : FileTree) (cwd : Place) (path : Path) : Bool :=
  !path.raw.contains 0 &&
    match files.nodeAt cwd path with
    | .ok (.file _ executable) | .ok (.program executable _) => executable
    | _ => false

/-! ## Building a tree -/

/-- A tree with nothing but its root. -/
def empty : FileTree :=
  ⟨fun place => if place.isEmpty then some .directory else none⟩

def put (files : FileTree) (place : Place) (node : Node) : FileTree :=
  ⟨fun other => if other == place then some node else files.node other⟩

/-- The directory that the segments lead to, once the missing ones are made. -/
def makeDirectories (files : FileTree) (here : Place) :
    List Bytes → FileTree × Place
  | [] => (files, here)
  | segment :: rest =>
    match files.walk (maxLinks + 1) here ⟨segment⟩ with
    | .ok place => files.makeDirectories place rest
    | .error _ =>
      if segment.isEmpty then files.makeDirectories here rest
      else
        let place := here ++ [segment]
        (files.put place .directory).makeDirectories place rest

/-- The directory at a path, once all that is missing of it is made. -/
def createDirectory (files : FileTree) (cwd : Place) (path : Path) : FileTree × Place :=
  files.makeDirectories (if path.isAbsolute then [] else cwd) path.segments

/-- Puts a node where the path says, and directories on the way to it. -/
def create (files : FileTree) (cwd : Place) (path : Path) (node : Node) : FileTree :=
  let start := if path.isAbsolute then [] else cwd
  let (files, place) := files.makeDirectories start path.segments.dropLast
  match path.segments.getLast? with
  | some name => if name.isEmpty then files else files.put (place ++ [name]) node
  | none => files

end FileTree

end LintRunner
